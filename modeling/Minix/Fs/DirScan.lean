import Minix.Fs.Chunk
import Minix.Fs.Dir

/-!
# The slots that a search sees

A search sees the slots of a directory in order, up to the first one that it wants (`hunt`). There
is one slot more than the size says when there are 65535, since the count is 0 behind the next one.
A search to `ENTER` that wants none of them ends behind the last one, if there is room in its block.
-/

namespace Minix.Fs

/-- The entry in a slot of a directory. -/
def dirEntry (sp : SuperBlock) (L : Contents) (rip : Inode) (k : ℕ) : DirEntry :=
  entryOf (fileByte sp L rip) k

/-- Whether a search ends at an entry: a free one to `ENTER`, or else a match. -/
def wanted (flag : DirFlag) (string : Name) (e : DirEntry) : Bool :=
  if flag = .ENTER then e.d_inum = 0 else e.d_inum ≠ 0 ∧ e.isMatch string

/-- The slots that a search sees. -/
def reach (slots : ℕ) : ℕ := if slots = 65535 then 65536 else slots

/-- The first slot from `k` on, of `n`, that a search wants. -/
def huntFrom (entry : ℕ → DirEntry) (flag : DirFlag) (string : Name) (k n : ℕ) : Option ℕ :=
  (List.range' k n).find? fun k => wanted flag string (entry k)

/-- The slot that a search wants. -/
def hunt (entry : ℕ → DirEntry) (flag : DirFlag) (string : Name) (slots : ℕ) : Option ℕ :=
  huntFrom entry flag string 0 (reach slots)

/-- A directory of which the blocks are in a mounted device. It has no holes. -/
structure IsDir (sp : SuperBlock) (held : Buf → ℕ) (c : Cache) (L : Contents) (rip : Inode)
    (slots : ℕ) : Prop where
  mounted : Mounted sp ⟨c, held⟩ L
  ok : FileOk sp L rip
  size : rip.i_size = DIR_ENTRY_SIZE * slots
  small : slots < 65536
  mapped : ∀ p < rip.i_size, zoneRef sp L rip (.data (sp.zoneOf p)) ≠ NO_ZONE

/-- A block of a directory, at a position, is in a buffer that is held. -/
structure HasBuf (sp : SuperBlock) (held : Buf → ℕ) (L : Contents) (rip : Inode) (position : ℕ)
    (c : Cache) (bp : Buf) : Prop where
  dev : c.b_dev bp = sp.s_dev
  blocknr : c.b_blocknr bp = dataBlock sp L rip position
  data : c.b_data bp = oldBlock sp L rip position
  mounted : Mounted sp ⟨c, Function.update held bp (held bp + 1)⟩ L

/-- What the loop on the blocks leaves. -/
def BlocksSearched (sp : SuperBlock) (held : Buf → ℕ) (L : Contents) (rip : Inode) (flag : DirFlag)
    (string : Name) (slots : ℕ) : Option (Buf × ℕ) × ℕ × Cache → Prop
  | (some (bp, i), new_slots, c) => ∃ k, i = k % NR_DIR_ENTRIES ∧ k < 65536 ∧
      new_slots = unshort (k + 1) ∧ HasBuf sp held L rip (DIR_ENTRY_SIZE * k) c bp ∧
      (hunt (dirEntry sp L rip) flag string slots = some k ∨
        flag = .ENTER ∧ hunt (dirEntry sp L rip) flag string slots = none ∧ k = slots ∧
          reach slots = slots ∧ slots % NR_DIR_ENTRIES ≠ 0)
  | (none, new_slots, c) => hunt (dirEntry sp L rip) flag string slots = none ∧
      (flag = .ENTER → reach slots % NR_DIR_ENTRIES = 0 ∧ new_slots = unshort (reach slots)) ∧
      Mounted sp ⟨c, held⟩ L

/-- A search that the caller may make. -/
structure MaySearch (fp : Caller) (s_rd_only : Bool) (dir : OwnedInode) (flag : DirFlag) : Prop where
  type : dir.i_mode &&& I_TYPE = I_DIRECTORY
  access : forbidden fp s_rd_only dir flag.bits false = OK

/-- Two directories give the same access. -/
structure SameRights (dir dir' : OwnedInode) : Prop where
  mode : dir'.i_mode = dir.i_mode
  uid : dir'.i_uid = dir.i_uid
  gid : dir'.i_gid = dir.i_gid

variable {sp : SuperBlock} {held : Buf → ℕ} {c : Cache} {L L' : Contents} {rip rip' : Inode}
  {slots k k₀ n i j m p : ℕ} {flag : DirFlag} {string : Name} {entry : ℕ → DirEntry} {b : Block}
  {e : DirEntry} {bp : Buf} {dir dir' : OwnedInode} {fp : Caller} {s_rd_only : Bool}

/-! ## Entries in blocks -/

/-- Entries are the same if their bytes are. -/
theorem entryOf_congr {byte byte' : ℕ → UInt8}
    (h : ∀ x < DIR_ENTRY_SIZE, byte (DIR_ENTRY_SIZE * i + x) = byte' (DIR_ENTRY_SIZE * j + x)) :
    entryOf byte i = entryOf byte' j := by
  have h0 := h 0 (by decide)
  have h1 := h 1 (by decide)
  rw [Nat.add_zero, Nat.add_zero] at h0
  have hname : ∀ x : Fin NAME_MAX, byte (DIR_ENTRY_SIZE * i + 2 + x) =
      byte' (DIR_ENTRY_SIZE * j + 2 + x) := by
    intro x
    have hx : (x : ℕ) < 14 := x.isLt
    rw [Nat.add_assoc, Nat.add_assoc]
    exact h (2 + x) (show 2 + (x : ℕ) < 16 by omega)
  unfold entryOf
  rw [h0, h1]
  congr 1
  exact funext hname

/-- The entries of a block of a directory. -/
theorem bDir_oldBlock (hk : k / NR_DIR_ENTRIES = p / BLOCK_SIZE) :
    bDir (oldBlock sp L rip p) (k % NR_DIR_ENTRIES) = dirEntry sp L rip k := by
  refine entryOf_congr fun x hx => ?_
  have hk' := Nat.div_add_mod k NR_DIR_ENTRIES
  rw [hk] at hk'
  unfold oldBlock
  dsimp only
  congr 1
  unfold NR_DIR_ENTRIES DIR_ENTRY_SIZE BLOCK_SIZE at *
  omega

/-- The number of an inode is kept in two bytes. -/
theorem toNat_bytes {n : ℕ} (h : n < 65536) :
    (UInt8.ofNat (n / 256)).toNat * 256 + (UInt8.ofNat n).toNat = n := by
  rw [UInt8.toNat_ofNat', UInt8.toNat_ofNat']
  omega

/-- An entry is what its bytes are. -/
theorem entryOf_byte (he : e.d_inum < 65536) {byte : ℕ → UInt8}
    (h : ∀ x < DIR_ENTRY_SIZE, byte (DIR_ENTRY_SIZE * i + x) = e.byte x) : entryOf byte i = e := by
  have h0 : byte (DIR_ENTRY_SIZE * i) = UInt8.ofNat (e.d_inum / 256) := h 0 (by decide)
  have h1 : byte (DIR_ENTRY_SIZE * i + 1) = UInt8.ofNat e.d_inum := h 1 (by decide)
  have hname : ∀ x : Fin NAME_MAX, byte (DIR_ENTRY_SIZE * i + 2 + x) = e.d_name x := by
    intro x
    have hx : (x : ℕ) < 14 := x.isLt
    have hbyte : e.byte (2 + x) = e.d_name x := by
      unfold DirEntry.byte
      rw [if_neg (by omega), if_neg (by omega), dif_pos (show 2 + (x : ℕ) - 2 < 14 by omega)]
      congr 1
      exact Fin.ext (Nat.add_sub_cancel_left 2 _)
    rw [Nat.add_assoc, h (2 + x) (show 2 + (x : ℕ) < 16 by omega), hbyte]
  unfold entryOf
  rw [h0, h1, toNat_bytes he, funext hname]

/-- The entries of a block in which one has been written. -/
theorem bDir_setDir (hj : j < NR_DIR_ENTRIES) (he : e.d_inum < 65536) :
    bDir (setDir b i e) j = if j = i then e else bDir b j := by
  have hj : j < 64 := hj
  have hplace : ∀ x < DIR_ENTRY_SIZE, (DIR_ENTRY_SIZE * j + x) % BLOCK_SIZE / DIR_ENTRY_SIZE = j ∧
      (DIR_ENTRY_SIZE * j + x) % BLOCK_SIZE % DIR_ENTRY_SIZE = x := by
    intro x hx
    unfold DIR_ENTRY_SIZE BLOCK_SIZE at *
    omega
  split_ifs with hji
  · refine entryOf_byte he fun x hx => ?_
    obtain ⟨hdiv, hmod⟩ := hplace x hx
    unfold setDir
    dsimp only
    rw [if_pos (hdiv.trans hji), hmod]
  · refine entryOf_congr fun x hx => ?_
    obtain ⟨hdiv, -⟩ := hplace x hx
    unfold setDir
    dsimp only
    rw [if_neg fun e => hji (hdiv.symm.trans e)]

/-! ## The slots of a block -/

/-- The slots that are seen end where the count says so. -/
theorem unshort_gt_iff (hk : k ≤ reach slots) (hlt : k < 65536) (hs : slots < 65536) :
    unshort (k + 1) > slots ↔ k = reach slots := by
  unfold unshort
  unfold reach at hk ⊢
  split_ifs at hk ⊢ <;> omega

/-- The number of slots seen, modulo 65536. -/
theorem unshort_succ : unshort (unshort k + 1) = unshort (k + 1) := Nat.mod_add_mod ..

/-- A search of a block, of which `n` slots are left, from slot `k` of the directory on. -/
theorem searchBlock_eq (hentry : ∀ j < n, bDir b (i + j) = entry (k + j)) (hk : k ≤ reach slots)
    (hn : k + n ≤ 65536) (hs : slots < 65536) :
    searchBlock b flag string slots n i (unshort k) =
      match huntFrom entry flag string k (min n (reach slots - k)) with
      | some k' => (some (i + (k' - k)), unshort (k' + 1))
      | none =>
        if k + n ≤ reach slots then (none, unshort (k + n))
        else (if flag = .ENTER then some (i + (reach slots - k)) else none,
          unshort (reach slots + 1)) := by
  induction n generalizing i k with
  | zero =>
    rw [Nat.zero_min]
    show (none, unshort k) = if k + 0 ≤ reach slots then _ else _
    rw [if_pos (by omega), Nat.add_zero]
  | succ n ih =>
    have hhere : bDir b i = entry k := hentry 0 (Nat.succ_pos n)
    unfold searchBlock
    dsimp only
    rw [unshort_succ, hhere]
    by_cases hend : k = reach slots
    · rw [if_pos ((unshort_gt_iff hk (by omega) hs).mpr hend)]
      have hnone : huntFrom entry flag string k (min (n + 1) (reach slots - k)) = none := by
        rw [← hend, Nat.sub_self, Nat.min_zero]
        rfl
      rw [hnone]
      dsimp only
      rw [if_neg (show ¬k + (n + 1) ≤ reach slots by omega), ← hend, Nat.sub_self]
      rfl
    · rw [if_neg fun e => hend ((unshort_gt_iff hk (by omega) hs).mp e)]
      have hmin : min (n + 1) (reach slots - k) = min n (reach slots - (k + 1)) + 1 := by omega
      have hcons : huntFrom entry flag string k (min (n + 1) (reach slots - k)) =
          if wanted flag string (entry k) then some k
          else huntFrom entry flag string (k + 1) (min n (reach slots - (k + 1))) := by
        rw [hmin]
        unfold huntFrom
        rw [List.range'_succ, List.find?_cons]
        cases wanted flag string (entry k) <;> rfl
      rw [hcons]
      by_cases hwant : wanted flag string (entry k) = true
      · rw [if_pos hwant]
        dsimp only
        rw [Nat.sub_self, Nat.add_zero]
        unfold wanted at hwant
        by_cases hflag : flag = .ENTER
        · rw [if_pos hflag, decide_eq_true_eq] at hwant
          rw [if_neg fun e => e.1 hflag, if_pos ⟨hflag, hwant⟩]
          rfl
        · rw [if_neg hflag, decide_eq_true_eq] at hwant
          rw [if_pos ⟨hflag, hwant⟩]
          rfl
      · rw [if_neg hwant]
        have hrest := ih (k := k + 1) (i := i + 1)
          (fun j hj => by
            have := hentry (j + 1) (by omega)
            rwa [Nat.add_comm j, ← Nat.add_assoc, ← Nat.add_assoc] at this)
          (by omega) (by omega)
        unfold wanted at hwant
        have hgo : ¬(flag ≠ .ENTER ∧ (entry k).d_inum ≠ 0 ∧ (entry k).isMatch string = true) ∧
            ¬(flag = .ENTER ∧ (entry k).d_inum = 0) := by
          by_cases hflag : flag = .ENTER
          · rw [if_pos hflag, decide_eq_true_eq] at hwant
            exact ⟨fun e => e.1 hflag, fun e => hwant e.2⟩
          · rw [if_neg hflag, decide_eq_true_eq] at hwant
            exact ⟨fun e => hwant e.2, fun e => hflag e.1⟩
        rw [if_neg hgo.1, if_neg hgo.2, hrest]
        cases hfind : huntFrom entry flag string (k + 1) (min n (reach slots - (k + 1))) with
        | some k' =>
          have hle : k + 1 ≤ k' := (List.mem_range'_1.mp (List.mem_of_find?_eq_some hfind)).1
          dsimp only
          have hslot : i + 1 + (k' - (k + 1)) = i + (k' - k) := by omega
          rw [hslot]
        | none =>
          dsimp only
          have hslot : i + 1 + (reach slots - (k + 1)) = i + (reach slots - k) := by omega
          rw [hslot, Nat.add_assoc k 1 n, Nat.add_comm 1 n]

/-! ## The blocks of a directory -/

/-- A hunt goes on where another one has ended. -/
theorem huntFrom_add : huntFrom entry flag string k (n + m) =
    (huntFrom entry flag string k n).or (huntFrom entry flag string (k + n) m) := by
  unfold huntFrom
  rw [← List.range'_append_1, List.find?_append]

/-- The buffer of a block is that of all its positions. -/
theorem HasBuf.congr {q : ℕ} (h : HasBuf sp held L rip p c bp)
    (hpq : p / BLOCK_SIZE = q / BLOCK_SIZE) : HasBuf sp held L rip q c bp := by
  have hzone : sp.zoneOf q = sp.zoneOf p := by rw [sp.zoneOf_eq, sp.zoneOf_eq, hpq]
  have hboff : sp.boff q = sp.boff p := by rw [sp.boff_eq, sp.boff_eq, hpq]
  refine ⟨h.dev, ?_, ?_, h.mounted⟩
  · rw [h.blocknr]
    unfold dataBlock
    rw [hzone, hboff]
  · rw [h.data]
    unfold oldBlock
    rw [hpq]

/-- A block of a directory is mapped. -/
theorem IsDir.blockAt (h : IsDir sp held c L rip slots) (hp : p < rip.i_size) :
    Fs.blockAt sp L rip p = dataBlock sp L rip p := if_neg (h.mapped p hp)

/-- A block of a directory is got. -/
theorem IsDir.getBlock (h : IsDir sp held c L rip slots) (hh : Holds sp held) (hsp : sp.Ok)
    (hp : p < rip.i_size) :
    ∃ bp c', Fs.getBlock c rip.i_dev (dataBlock sp L rip p) .NORMAL = some (bp, c') ∧
      HasBuf sp held L rip p c' bp := by
  obtain ⟨bp, c', he, hdev, hb, hdata, hm⟩ := h.mounted.get hh hsp.dev (dataBlock sp L rip p)
  rw [h.ok.dev]
  refine ⟨bp, c', he, hdev, hb, ?_, hm⟩
  rw [hdata, oldBlock_mapped rfl (h.mapped p hp)]
  rfl

theorem directory_plain : PlainType DIRECTORY_BLOCK := ⟨by decide, by decide⟩

/-- The loop ends behind the last block. -/
theorem searchBlocks_end (hp : rip.i_size ≤ p) (m : ℕ) :
    searchBlocks c sp rip flag string slots n p m = some (none, m, c) := by
  cases n with
  | zero => rfl
  | succ n => exact if_neg (by omega)

/-- What `reach` comes to. -/
theorem reach_cases (h : slots < 65536) :
    reach slots = slots ∧ slots < 65535 ∨ reach slots = 65536 ∧ slots = 65535 := by
  unfold reach
  split_ifs <;> omega

/-- The loop is behind the last block, and nothing has been found. -/
theorem IsDir.searchedAll (h : IsDir sp held c L rip slots)
    (hj : NR_DIR_ENTRIES * j ≤ reach slots) (hend : rip.i_size ≤ BLOCK_SIZE * j)
    (hprev : huntFrom (dirEntry sp L rip) flag string 0 (NR_DIR_ENTRIES * j) = none) :
    BlocksSearched sp held L rip flag string slots (none, unshort (NR_DIR_ENTRIES * j), c) := by
  have hsize : rip.i_size = 16 * slots := h.size
  have hend : 16 * slots ≤ 1024 * j := hsize ▸ hend
  have hj : 64 * j ≤ reach slots := hj
  have hreach := reach_cases h.small
  have heq : NR_DIR_ENTRIES * j = reach slots := by
    show 64 * j = reach slots
    omega
  refine ⟨?_, fun _ => ⟨?_, by rw [heq]⟩, h.mounted⟩
  · unfold hunt
    rw [← heq]
    exact hprev
  · rw [← heq]
    exact Nat.mul_mod_right ..

/-- The loop on the blocks, from block `j` on. -/
theorem IsDir.searchBlocks (h : IsDir sp held c L rip slots) (hh : Holds sp held) (hsp : sp.Ok)
    (hj : NR_DIR_ENTRIES * j ≤ reach slots) (hn : slots ≤ NR_DIR_ENTRIES * (j + n))
    (hprev : huntFrom (dirEntry sp L rip) flag string 0 (NR_DIR_ENTRIES * j) = none) :
    ∃ res, Fs.searchBlocks c sp rip flag string slots n (BLOCK_SIZE * j)
        (unshort (NR_DIR_ENTRIES * j)) = some res ∧
      BlocksSearched sp held L rip flag string slots res := by
  induction n generalizing c j with
  | zero =>
    have hn : slots ≤ 64 * j := hn
    have hend : rip.i_size ≤ BLOCK_SIZE * j := by
      rw [h.size]
      show 16 * slots ≤ 1024 * j
      omega
    exact ⟨_, rfl, h.searchedAll hj hend hprev⟩
  | succ n ih =>
    have hsize : rip.i_size = 16 * slots := h.size
    have hreach := reach_cases h.small
    have hj' : 64 * j ≤ reach slots := hj
    by_cases hp : BLOCK_SIZE * j < rip.i_size
    · have hp' : 1024 * j < 16 * slots := hsize ▸ hp
      obtain ⟨c₁, he₁, hm₁⟩ := h.mounted.readMap hh (by rw [h.ok.dev]; exact hsp.dev)
        (BLOCK_SIZE * j)
      have h₁ : IsDir sp held c₁ L rip slots := ⟨hm₁, h.ok, h.size, h.small, h.mapped⟩
      obtain ⟨bp, c₂, he₂, hbuf⟩ := h₁.getBlock hh hsp hp
      rw [h.blockAt hp] at he₁
      have hentry : ∀ i < NR_DIR_ENTRIES, bDir (c₂.b_data bp) (0 + i) =
          dirEntry sp L rip (NR_DIR_ENTRIES * j + i) := by
        intro i hi
        have hi' : i < 64 := hi
        have hmod : (NR_DIR_ENTRIES * j + i) % NR_DIR_ENTRIES = i := by
          rw [Nat.mul_add_mod, Nat.mod_eq_of_lt hi]
        rw [hbuf.data, Nat.zero_add, ← bDir_oldBlock (p := BLOCK_SIZE * j), hmod]
        rw [Nat.mul_add_div (by decide), Nat.div_eq_of_lt hi, Nat.mul_div_cancel_left _ (by decide)]
        rfl
      have hblock : searchBlock (c₂.b_data bp) flag string slots NR_DIR_ENTRIES 0
          (unshort (NR_DIR_ENTRIES * j)) = _ :=
        searchBlock_eq hentry hj (show 64 * j + 64 ≤ 65536 by omega) h.small
      have hput : Mounted sp ⟨putBlock c₂ (some bp) DIRECTORY_BLOCK, held⟩ L :=
        hbuf.mounted.put directory_plain
      have hposition : ∀ k, NR_DIR_ENTRIES * j ≤ k → k < NR_DIR_ENTRIES * j + NR_DIR_ENTRIES →
          k % NR_DIR_ENTRIES = k - NR_DIR_ENTRIES * j ∧
            HasBuf sp held L rip (DIR_ENTRY_SIZE * k) c₂ bp := by
        intro k hle hlt
        have hle : 64 * j ≤ k := hle
        have hlt : k < 64 * j + 64 := hlt
        have hdiv : DIR_ENTRY_SIZE * k / BLOCK_SIZE = BLOCK_SIZE * j / BLOCK_SIZE := by
          show 16 * k / 1024 = 1024 * j / 1024
          omega
        exact ⟨show k % 64 = k - 64 * j by omega, hbuf.congr hdiv.symm⟩
      unfold Fs.searchBlocks
      rw [if_pos hp, he₁, Option.bind_eq_bind, Option.bind_some]
      dsimp only
      rw [he₂, Option.bind_eq_bind, Option.bind_some]
      dsimp only
      rw [hblock]
      cases hfind : huntFrom (dirEntry sp L rip) flag string (NR_DIR_ENTRIES * j)
          (min NR_DIR_ENTRIES (reach slots - NR_DIR_ENTRIES * j)) with
      | some k =>
        obtain ⟨hle, hlt⟩ := List.mem_range'_1.mp (List.mem_of_find?_eq_some hfind)
        have hlt : k < 64 * j + min 64 (reach slots - 64 * j) := hlt
        obtain ⟨hmod, hbuf'⟩ := hposition k hle (show k < 64 * j + 64 by omega)
        refine ⟨_, rfl, k, ?_, by omega, rfl, hbuf', Or.inl ?_⟩
        · rw [hmod, Nat.zero_add]
        · have hsplit : reach slots = NR_DIR_ENTRIES * j + (min NR_DIR_ENTRIES
              (reach slots - NR_DIR_ENTRIES * j) + (reach slots - NR_DIR_ENTRIES * j -
                min NR_DIR_ENTRIES (reach slots - NR_DIR_ENTRIES * j))) := by
            omega
          unfold hunt
          rw [hsplit, huntFrom_add, hprev, Option.none_or, huntFrom_add, Nat.zero_add, hfind]
          rfl
      | none =>
        dsimp only
        by_cases hnext : NR_DIR_ENTRIES * j + NR_DIR_ENTRIES ≤ reach slots
        · -- The whole block has been searched.
          have hmin : min NR_DIR_ENTRIES (reach slots - NR_DIR_ENTRIES * j) = NR_DIR_ENTRIES := by
            omega
          rw [hmin] at hfind
          rw [if_pos hnext]
          have hnew : IsDir sp held (putBlock c₂ (some bp) DIRECTORY_BLOCK) L rip slots :=
            ⟨hput, h.ok, h.size, h.small, h.mapped⟩
          refine ih hnew hnext (by rwa [Nat.add_assoc j, Nat.add_comm 1]) ?_
          rw [Nat.mul_succ, huntFrom_add, hprev, Option.none_or, Nat.zero_add]
          exact hfind
        · -- The last slots are in this block.
          have hmin : min NR_DIR_ENTRIES (reach slots - NR_DIR_ENTRIES * j) =
              reach slots - NR_DIR_ENTRIES * j := by
            omega
          have hnone : hunt (dirEntry sp L rip) flag string slots = none := by
            have hsplit : reach slots = NR_DIR_ENTRIES * j + (reach slots - NR_DIR_ENTRIES * j) := by
              omega
            rw [hmin] at hfind
            unfold hunt
            rw [hsplit, huntFrom_add, hprev, Option.none_or, Nat.zero_add]
            exact hfind
          rw [if_neg hnext]
          have hnext : ¬64 * j + 64 ≤ reach slots := hnext
          by_cases hflag : flag = .ENTER
          · rw [if_pos hflag]
            have hslots : reach slots = slots := by omega
            obtain ⟨hmod, hbuf'⟩ := hposition slots (show 64 * j ≤ slots by omega)
              (show slots < 64 * j + 64 by omega)
            rw [hslots]
            refine ⟨_, rfl, slots, ?_, h.small, rfl, hbuf', Or.inr ⟨hflag, hnone, rfl, hslots, ?_⟩⟩
            · rw [hmod, Nat.zero_add]
            · show slots % 64 ≠ 0
              omega
          · rw [if_neg hflag]
            dsimp only
            have hend : rip.i_size ≤ BLOCK_SIZE * j + BLOCK_SIZE := by
              rw [h.size]
              show 16 * slots ≤ 1024 * j + 1024
              omega
            exact ⟨_, searchBlocks_end hend _, hnone, fun e => absurd e hflag, hput⟩
    · exact ⟨_, if_neg hp, h.searchedAll hj (by omega) hprev⟩

/-! ## Hunts -/

/-- The slot that a hunt ends at is seen. -/
theorem hunt_lt {entry : ℕ → DirEntry} (h : hunt entry flag string slots = some k) :
    k < reach slots := by
  obtain ⟨-, hlt⟩ := List.mem_range'_1.mp (List.mem_of_find?_eq_some h)
  rwa [Nat.zero_add] at hlt

/-- A hunt ends at the first slot that is wanted. -/
theorem hunt_some (h : hunt entry flag string slots = some k) :
    k < reach slots ∧ wanted flag string (entry k) = true ∧
      ∀ j < k, wanted flag string (entry j) = false := by
  have hlt := hunt_lt h
  unfold hunt huntFrom at h
  rw [← List.range_eq_range'] at h
  obtain ⟨hwant, -, hbefore⟩ := List.find?_range_eq_some.mp h
  refine ⟨hlt, hwant, fun j hj => ?_⟩
  simpa using hbefore j hj

/-- A hunt ends behind the last slot when none is wanted. -/
theorem hunt_none : hunt entry flag string slots = none ↔
    ∀ k < reach slots, wanted flag string (entry k) = false := by
  unfold hunt huntFrom
  rw [← List.range_eq_range', List.find?_range_eq_none]
  simp

/-- What is wanted by a search that does not make an entry. -/
theorem wanted_match (hflag : flag ≠ .ENTER) {e : DirEntry} :
    wanted flag string e = true ↔ e.d_inum ≠ 0 ∧ e.isMatch string = true := by
  unfold wanted
  rw [if_neg hflag, decide_eq_true_eq]

/-- What is wanted by a search that makes an entry. -/
theorem wanted_enter {e : DirEntry} : wanted .ENTER string e = true ↔ e.d_inum = 0 := by
  unfold wanted
  rw [if_pos rfl, decide_eq_true_eq]

/-- An entry matches a name that is its own. -/
theorem isMatch_name {e : DirEntry} (hne : cName string ≠ []) :
    e.isMatch string = true ↔ cName e.d_name = cName string := by
  unfold DirEntry.isMatch
  rw [if_neg hne, decide_eq_true_eq]

/-- An entry matches the empty string if it is neither `.` nor `..` -/
theorem isMatch_empty {e : DirEntry} (he : cName string = []) :
    e.isMatch string = true ↔ cName e.d_name ≠ dotName ∧ cName e.d_name ≠ dotDotName := by
  unfold DirEntry.isMatch
  rw [if_pos he, decide_eq_true_eq]

/-! ## Rights -/

theorem SameRights.forbidden (h : SameRights dir dir') (access : ℕ)
    (real_uid : Bool) :
    Fs.forbidden fp s_rd_only dir' access real_uid = Fs.forbidden fp s_rd_only dir access real_uid := by
  unfold Fs.forbidden permBits
  rw [h.mode, h.uid, h.gid]

/-- The caller may make the same searches. -/
theorem SameRights.may (h : SameRights dir dir')
    (ha : MaySearch fp s_rd_only dir flag) : MaySearch fp s_rd_only dir' flag :=
  ⟨by rw [h.mode, ha.type], by rw [h.forbidden, ha.access]⟩

end Minix.Fs
