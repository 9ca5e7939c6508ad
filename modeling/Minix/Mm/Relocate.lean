import Mathlib.Data.List.Basic
import Mathlib.Order.Basic
import Minix.Mm.Exec

/-!
# Relocation

`relocate` of `mm/exec.c`. The relocation info comes in the pieces that `read` returns, `p` being
what is left of the piece in the buffer and `n` its length. Memory is the memory of the new program;
the buffer and the variables of the memory manager are not in it. A run is a `none` if it has not
come to its end when the fuel is used up.

`gemdos` is the format: the addresses of the longs that a stream of bytes says to relocate, and what
becomes of it in the end. The result of `relocate` is that of the format on the whole stream,
however it is cut (`relocate_gemdos`).
-/

namespace Minix.Mm

/-- Memory, byte by byte. -/
abbrev Core := BitVec 32 → BitVec 8

/-- Four bytes, the first of them the most significant one. -/
def longOf (b₀ b₁ b₂ b₃ : BitVec 8) : BitVec 32 := b₀ ++ b₁ ++ b₂ ++ b₃

/-- `*((long *)adr) += off`. -/
def addLong (off : BitVec 32) (core : Core) (adr : BitVec 32) : Core :=
  let v := longOf (core adr) (core (adr + 1)) (core (adr + 2)) (core (adr + 3)) + off
  fun a => if a - adr < 4 then v.extractLsb' (8 * (3 - (a - adr).toNat)) 8 else core a

/-- The variables that have to do with the buffer, and what `read` will return. -/
structure RelocInput where
  n : ℤ
  p : List (BitVec 8)
  pieces : List (List (BitVec 8))

/-- `p = buf; n = read(fd, p, ARG_MAX)`. At end of file, `read` returns 0. -/
def RelocInput.read (s : RelocInput) : RelocInput :=
  match s.pieces with
  | [] => ⟨0, [], []⟩
  | piece :: pieces => ⟨piece.length, piece, pieces⟩

/-- `--n < 0` -/
def RelocInput.count (s : RelocInput) : RelocInput := { s with n := s.n - 1 }

/-- The next byte, which is `*p++`. There is none at end of file. -/
def RelocInput.next (s : RelocInput) : Option (BitVec 8 × RelocInput) :=
  let s := s.count
  let s := if s.n < 0 then s.read.count else s
  if s.n < 0 then none
  else
    match s.p with
    | [] => none
    | c :: p => some (c, { s with p := p })

/-- The loop once per byte: the byte that ends it, and the address. In the inner option, `none` is a
return in the loop. -/
def relocSkip : ℕ → RelocInput → BitVec 32 → Option (Option (BitVec 8 × RelocInput × BitVec 32))
  | 0, _, _ => none
  | fuel + 1, s, adr =>
    match s.next with
    | none => some none
    | some (c, s) => if c ≠ 1 then some (some (c, s, adr)) else relocSkip fuel s (adr + 254)

/-- The loop once per relocation. -/
def relocLoop (off : BitVec 32) : ℕ → RelocInput → BitVec 32 → Core → Option (ℤ × Core)
  | 0, _, _, _ => none
  | fuel + 1, s, adr, core =>
    let core := addLong off core adr
    (relocSkip (fuel + 1) s adr).bind fun r =>
    match r with
    | none => some (-1, core)
    | some (c, s, adr) =>
      if c = 0 then some (0, core)
      else if c &&& 1 ≠ 0 then some (-1, core)
      else relocLoop off fuel s (adr + c.zeroExtend 32) core

/-- The load offset, which is where the text is. -/
def relocOff (segT : MemMap) : BitVec 32 := BitVec.ofNat 32 (segT.mem_phys <<< CLICK_SHIFT)

/-- Read in relocation info from the exec file and relocate. -/
def relocate (fuel : ℕ) (segT : MemMap) (pieces : List (List (BitVec 8))) (core : Core) :
    Option (ℤ × Core) :=
  let off := relocOff segT
  let s : RelocInput := RelocInput.read ⟨0, [], pieces⟩
  match s.p with
  | b₀ :: b₁ :: b₂ :: b₃ :: p =>
    if longOf b₀ b₁ b₂ b₃ = 0 then some (0, core)
    else relocLoop off fuel ⟨s.n - 4, p, s.pieces⟩ (off + longOf b₀ b₁ b₂ b₃) core
  | _ => some (-1, core)

/-! ## The format -/

/-- The bytes after the first long: the addresses to relocate, from an address on, and 0 if the end
is as it should be. -/
def relocBytes : ℤ → List (BitVec 8) → List ℤ × ℤ
  | _, [] => ([], -1)
  | adr, b :: bytes =>
    if b = 0 then ([], 0)
    else if b = 1 then relocBytes (adr + 254) bytes
    else if b.toNat % 2 = 1 then ([], -1)
    else
      ((adr + b.toNat) :: (relocBytes (adr + b.toNat) bytes).1,
        (relocBytes (adr + b.toNat) bytes).2)

/-- The format starts with a long, the offset to the beginning of text for the first long to be
relocated. If it is 0 then no relocations have to be made. -/
def gemdos (off : ℤ) : List (BitVec 8) → List ℤ × ℤ
  | b₀ :: b₁ :: b₂ :: b₃ :: bytes =>
    let first := (longOf b₀ b₁ b₂ b₃).toInt
    if first = 0 then ([], 0)
    else
      ((off + first) :: (relocBytes (off + first) bytes).1, (relocBytes (off + first) bytes).2)
  | _ => ([], -1)

/-- The offset is added to the longs at these addresses, in this order. -/
def addLongs (off : BitVec 32) (core : Core) (adrs : List ℤ) : Core :=
  adrs.foldl (fun core adr => addLong off core (BitVec.ofInt 32 adr)) core

variable {off : BitVec 32} {s : RelocInput} {bytes : List (BitVec 8)} {core : Core} {b : BitVec 8}
  {fuel : ℕ} {adr : ℤ}

/-! ## Reading -/

/-- The bytes that are still to be read. -/
structure Ready (s : RelocInput) (bytes : List (BitVec 8)) : Prop where
  count : s.n = s.p.length
  pieces : ∀ piece ∈ s.pieces, piece ≠ []
  bytes : s.p ++ s.pieces.flatten = bytes

/-- At the end of the stream there is no next byte. -/
theorem Ready.next_nil (h : Ready s []) : s.next = none := by
  obtain ⟨hp, hrest⟩ := List.append_eq_nil_iff.mp h.bytes
  have hcount := h.count
  rw [hp] at hcount
  have hpieces : s.pieces = [] := by
    cases hs : s.pieces with
    | nil => rfl
    | cons piece pieces =>
      rw [hs, List.flatten_cons] at hrest
      exact absurd (List.append_eq_nil_iff.mp hrest).1 (h.pieces piece (hs ▸ List.mem_cons_self))
  have hneg : s.count.n < 0 := by
    show s.n - 1 < 0
    rw [hcount]
    decide
  have hread : s.count.read.count = ⟨-1, [], []⟩ := by
    unfold RelocInput.read
    rw [show s.count.pieces = s.pieces from rfl, hpieces]
    rfl
  unfold RelocInput.next
  dsimp only
  rw [if_pos hneg, hread]
  rfl

/-- Otherwise the next byte is the next one of the stream, from this piece or the one after it. -/
theorem Ready.next_cons (h : Ready s (b :: bytes)) :
    ∃ s', s.next = some (b, s') ∧ Ready s' bytes := by
  have hcount := h.count
  have hbytes := h.bytes
  cases hp : s.p with
  | cons c p =>
    rw [hp] at hcount hbytes
    obtain ⟨rfl, htail⟩ := List.cons.inj hbytes
    have hpos : ¬ s.count.n < 0 := by
      show ¬ s.n - 1 < 0
      rw [hcount, List.length_cons]
      omega
    refine ⟨{ s.count with p := p }, ?_, ?_, h.pieces, htail⟩
    · unfold RelocInput.next
      dsimp only
      rw [if_neg hpos, if_neg hpos, show s.count.p = s.p from rfl, hp]
    · show s.n - 1 = p.length
      rw [hcount, List.length_cons]
      omega
  | nil =>
    rw [hp] at hcount hbytes
    cases hs : s.pieces with
    | nil =>
      rw [hs] at hbytes
      cases hbytes
    | cons piece pieces =>
      have hne : piece ≠ [] := h.pieces piece (hs ▸ List.mem_cons_self)
      rw [hs, List.nil_append, List.flatten_cons] at hbytes
      cases piece with
      | nil => exact absurd rfl hne
      | cons c p =>
        obtain ⟨rfl, htail⟩ := List.cons.inj hbytes
        have hneg : s.count.n < 0 := by
          show s.n - 1 < 0
          rw [hcount]
          decide
        have hread : s.count.read.count = ⟨(p.length : ℤ) + 1 - 1, c :: p, pieces⟩ := by
          unfold RelocInput.read
          rw [show s.count.pieces = s.pieces from rfl, hs]
          rfl
        have hpos : ¬ (p.length : ℤ) + 1 - 1 < 0 := by omega
        refine ⟨⟨(p.length : ℤ) + 1 - 1, p, pieces⟩, ?_, ?_, ?_, htail⟩
        · unfold RelocInput.next
          dsimp only
          rw [if_pos hneg, hread]
          exact if_neg hpos
        · dsimp only
          omega
        · intro q hq
          exact h.pieces q (hs ▸ List.mem_cons_of_mem _ hq)

/-! ## The loops -/

theorem ofInt_add_nat (a : ℤ) (k : ℕ) :
    BitVec.ofInt 32 a + BitVec.ofNat 32 k = BitVec.ofInt 32 (a + k) := by
  rw [BitVec.ofInt_add, BitVec.ofInt_natCast]

/-- The byte as a distance. -/
theorem ofInt_add_byte (a : ℤ) (c : BitVec 8) :
    BitVec.ofInt 32 a + c.zeroExtend 32 = BitVec.ofInt 32 (a + c.toNat) := by
  have hc : c.zeroExtend 32 = BitVec.ofNat 32 c.toNat := by
    apply BitVec.eq_of_toNat_eq
    rw [BitVec.toNat_setWidth, BitVec.toNat_ofNat]
  rw [hc, ofInt_add_nat]

/-- What the inner loop does with the stream: it goes over bytes 1 to the end of the stream, or to
another byte. -/
inductive Skipped (fuel : ℕ) (s : RelocInput) (adr : ℤ) (bytes : List (BitVec 8)) : Prop
  | ended (h : relocSkip fuel s (BitVec.ofInt 32 adr) = some none)
      (hbytes : relocBytes adr bytes = ([], -1))
  | found (c : BitVec 8) (s' : RelocInput) (adr' : ℤ) (rest : List (BitVec 8))
      (h : relocSkip fuel s (BitVec.ofInt 32 adr) = some (some (c, s', BitVec.ofInt 32 adr')))
      (hone : c ≠ 1) (hready : Ready s' rest) (hless : rest.length < bytes.length)
      (hle : adr ≤ adr') (hbytes : relocBytes adr bytes = relocBytes adr' (c :: rest))

theorem relocSkip_spec (h : Ready s bytes) (hfuel : bytes.length < fuel) :
    Skipped fuel s adr bytes := by
  induction bytes generalizing fuel s adr with
  | nil =>
    obtain ⟨fuel, rfl⟩ := Nat.exists_eq_succ_of_ne_zero (Nat.ne_of_gt hfuel)
    have hend : relocSkip (fuel + 1) s (BitVec.ofInt 32 adr) = some none := by
      rw [relocSkip, h.next_nil]
    exact .ended hend rfl
  | cons b bytes ih =>
    obtain ⟨fuel, rfl⟩ := Nat.exists_eq_succ_of_ne_zero (Nat.ne_of_gt (Nat.zero_lt_of_lt hfuel))
    obtain ⟨s', hnext, hready⟩ := h.next_cons
    rw [List.length_cons] at hfuel
    by_cases hb : b = 1
    · have hstep : relocSkip (fuel + 1) s (BitVec.ofInt 32 adr) =
          relocSkip fuel s' (BitVec.ofInt 32 (adr + 254)) := by
        have hadr : BitVec.ofInt 32 adr + 254 = BitVec.ofInt 32 (adr + 254) := ofInt_add_nat adr 254
        rw [relocSkip, hnext]
        dsimp only
        rw [if_neg (not_not.mpr hb), hadr]
      have hformat : relocBytes adr (b :: bytes) = relocBytes (adr + 254) bytes := by
        subst hb
        rfl
      cases ih hready (Nat.lt_of_succ_lt_succ hfuel) with
      | ended he hbytes => exact .ended (hstep.trans he) (hformat.trans hbytes)
      | found c t adr' rest hf hone hr hless hle hbytes =>
        exact .found c t adr' rest (hstep.trans hf) hone hr
          (by rw [List.length_cons]; omega) (by omega) (hformat.trans hbytes)
    · have hstop : relocSkip (fuel + 1) s (BitVec.ofInt 32 adr) =
          some (some (b, s', BitVec.ofInt 32 adr)) := by
        rw [relocSkip, hnext]
        exact if_pos hb
      exact .found b s' adr bytes hstop hb hready (Nat.lt_succ_self _) (le_refl _) rfl

/-- An odd byte is one with the lowest bit set. -/
theorem byte_odd (c : BitVec 8) : c &&& 1 ≠ 0 ↔ c.toNat % 2 = 1 := by
  revert c
  decide

/-- The outer loop relocates the long that it is at, and those that the rest of the stream says. -/
theorem relocLoop_spec (h : Ready s bytes) (hfuel : bytes.length < fuel) :
    relocLoop off fuel s (BitVec.ofInt 32 adr) core =
      some ((relocBytes adr bytes).2, addLongs off core (adr :: (relocBytes adr bytes).1)) := by
  induction fuel generalizing s bytes adr core with
  | zero => exact absurd hfuel (Nat.not_lt_zero _)
  | succ fuel ih =>
    have hskipped : Skipped (fuel + 1) s adr bytes := relocSkip_spec h hfuel
    rw [relocLoop]
    cases hskipped with
    | ended hskip hbytes =>
      rw [hskip, hbytes]
      rfl
    | found c s' adr' rest hskip hone hready hless hle hbytes =>
      rw [hskip, Option.bind_some, hbytes, relocBytes]
      dsimp only
      by_cases hzero : c = 0
      · rw [if_pos hzero, if_pos hzero]
        rfl
      rw [if_neg hzero, if_neg hzero, if_neg hone]
      by_cases hodd : c.toNat % 2 = 1
      · rw [if_pos ((byte_odd c).mpr hodd), if_pos hodd]
        rfl
      · rw [if_neg (mt (byte_odd c).mp hodd), if_neg hodd, ofInt_add_byte,
          ih hready (lt_of_lt_of_le hless (Nat.lt_succ_iff.mp hfuel))]
        rfl

/-- The addresses of the format come in increasing order. -/
theorem relocBytes_increasing (adr : ℤ) (bytes : List (BitVec 8)) :
    (adr :: (relocBytes adr bytes).1).Pairwise (· < ·) := by
  induction bytes generalizing adr with
  | nil => exact List.pairwise_singleton ..
  | cons b bytes ih =>
    rw [relocBytes]
    by_cases hzero : b = 0
    · rw [if_pos hzero]
      exact List.pairwise_singleton ..
    rw [if_neg hzero]
    by_cases hone : b = 1
    · rw [if_pos hone]
      have hlater := List.pairwise_cons.mp (ih (adr + 254))
      refine List.pairwise_cons.mpr ⟨fun a ha => ?_, hlater.2⟩
      have hlt := hlater.1 a ha
      omega
    rw [if_neg hone]
    by_cases hodd : b.toNat % 2 = 1
    · rw [if_pos hodd]
      exact List.pairwise_singleton ..
    rw [if_neg hodd]
    have hpos : 0 < b.toNat := by
      refine Nat.pos_of_ne_zero fun hz => hzero ?_
      exact BitVec.eq_of_toNat_eq hz
    have hlater := ih (adr + b.toNat)
    refine List.pairwise_cons.mpr ⟨fun a ha => ?_, hlater⟩
    rcases List.mem_cons.mp ha with rfl | ha
    · omega
    · have hlt := (List.pairwise_cons.mp hlater).1 a ha
      omega

theorem gemdos_increasing (off : ℤ) (bytes : List (BitVec 8)) :
    (gemdos off bytes).1.Pairwise (· < ·) := by
  unfold gemdos
  split
  · dsimp only
    split
    · exact List.Pairwise.nil
    · exact relocBytes_increasing ..
  · exact List.Pairwise.nil

/-- Relocation follows the format, however the stream is cut into pieces: with enough fuel
`relocate` comes to its end, the offset has been added once to each of the longs that the format
describes, in order, and the result is that of the format. -/
theorem relocate_gemdos {segT : MemMap} {piece : List (BitVec 8)} {pieces : List (List (BitVec 8))}
    (hfirst : 4 ≤ piece.length) (hcut : ∀ q ∈ piece :: pieces, q ≠ [] ∧ (q.length : ℤ) ≤ ARG_MAX)
    (hfuel : (piece :: pieces).flatten.length < fuel) :
    relocate fuel segT (piece :: pieces) core =
      some ((gemdos (relocOff segT).toInt (piece :: pieces).flatten).2,
        addLongs (relocOff segT) core (gemdos (relocOff segT).toInt (piece :: pieces).flatten).1) ∧
      (gemdos (relocOff segT).toInt (piece :: pieces).flatten).1.Pairwise (· < ·) := by
  refine ⟨?_, gemdos_increasing ..⟩
  obtain ⟨b₀, b₁, b₂, b₃, p, rfl⟩ : ∃ b₀ b₁ b₂ b₃ p, piece = b₀ :: b₁ :: b₂ :: b₃ :: p := by
    match piece, hfirst with
    | b₀ :: b₁ :: b₂ :: b₃ :: p, _ => exact ⟨b₀, b₁, b₂, b₃, p, rfl⟩
  have hstream : (b₀ :: b₁ :: b₂ :: b₃ :: p) ++ pieces.flatten =
      b₀ :: b₁ :: b₂ :: b₃ :: (p ++ pieces.flatten) := rfl
  rw [List.flatten_cons, hstream] at hfuel ⊢
  unfold relocate gemdos
  dsimp only [RelocInput.read]
  by_cases hzero : longOf b₀ b₁ b₂ b₃ = 0
  · have hfirst₀ : (longOf b₀ b₁ b₂ b₃).toInt = 0 := by
      rw [hzero]
      rfl
    rw [if_pos hzero, if_pos hfirst₀]
    rfl
  · have hfirst₀ : ¬ (longOf b₀ b₁ b₂ b₃).toInt = 0 :=
      fun hz => hzero (BitVec.eq_of_toInt_eq hz)
    have hready : Ready ⟨((b₀ :: b₁ :: b₂ :: b₃ :: p).length : ℤ) - 4, p, pieces⟩
        (p ++ pieces.flatten) := by
      refine ⟨?_, fun q hq => (hcut q (List.mem_cons_of_mem _ hq)).1, rfl⟩
      simp only [List.length_cons]
      omega
    have hadr : relocOff segT + longOf b₀ b₁ b₂ b₃ =
        BitVec.ofInt 32 ((relocOff segT).toInt + (longOf b₀ b₁ b₂ b₃).toInt) := by
      rw [BitVec.ofInt_add, BitVec.ofInt_toInt, BitVec.ofInt_toInt]
    rw [if_neg hzero, if_neg hfirst₀, hadr]
    refine relocLoop_spec hready (lt_of_le_of_lt ?_ hfuel)
    simp only [List.length_cons]
    omega

/-- A program at click 1, whose longs at 2, 6 and 266 are relocated by 256, in three pieces. -/
theorem relocate_gemdos_pieces :
    relocate 20 ⟨1, 1, 2⟩ [[0, 0, 0, 2, 4], [1, 6], [0]] (fun _ => 0) =
      some (0, addLongs 256 (fun _ => 0) [258, 262, 522]) := by
  have hcut : ∀ q ∈ ([[0, 0, 0, 2, 4], [1, 6], [0]] : List (List (BitVec 8))),
      q ≠ [] ∧ (q.length : ℤ) ≤ ARG_MAX := by decide
  have hrun : relocate 20 ⟨1, 1, 2⟩ [[0, 0, 0, 2, 4], [1, 6], [0]] (fun _ => 0) = _ :=
    (relocate_gemdos (by decide) hcut (by decide)).1
  have hformat : gemdos (relocOff ⟨1, 1, 2⟩).toInt
      ([[0, 0, 0, 2, 4], [1, 6], [0]] : List (List (BitVec 8))).flatten = ([258, 262, 522], 0) := by
    decide
  rw [hrun, hformat]
  rfl

end Minix.Mm
