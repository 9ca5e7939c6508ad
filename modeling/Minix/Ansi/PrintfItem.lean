import Minix.Ansi.Doprintf
import Minix.Lib.Places

/-!
# Items that print integers

What `_doprintf` puts out for an item is the numeral of its argument with padding (`item_spec`). It
reads as the argument, and has the width that is asked for, unless zeros are put behind the digits
(`printf_item`): a minus and a zero together fill up the number to another one.
-/

namespace Minix.Printf

open Lib Function

/-! ## Numerals -/

/-- What a character stands for. -/
def digitOf (c : Byte) : Option ℕ :=
  if ZERO ≤ c ∧ c ≤ NINE then some (c.toNat - 48)
  else if 65 ≤ c.toNat ∧ c.toNat ≤ 70 then some (c.toNat - 55)
  else none

/-- The number that digits stand for. -/
def readDigits (radix : ℕ) (text : List Byte) : Option ℕ := do
  let ds ← text.mapM digitOf
  if ds ≠ [] ∧ ∀ d ∈ ds, d < radix then some (valueOf radix ds) else none

/-- The number that a numeral stands for, which may have a sign. -/
def readNumber (radix : ℕ) (text : List Byte) : Option ℤ :=
  if text.head? = some MINUS then (readDigits radix text.tail).map fun n => -n
  else (readDigits radix text).map fun n => n

/-- The digits of a number. -/
def digits (radix : ℕ) (v : ℤ) : List Byte := (places radix v.natAbs).map digitChar

def sign (v : ℤ) : List Byte := if v < 0 then [MINUS] else []

/-- The canonical numeral. -/
def numeral (radix : ℕ) (v : ℤ) : List Byte := sign v ++ digits radix v

variable {radix num p q k : ℕ} {v w : ℤ} {buf : Buf} {ds : List ℕ} {text : List Byte}

/-- A character for a digit stands for it, and is no space and no sign. -/
theorem digitChar_spec : ∀ d < 16,
    digitOf (digitChar d) = some d ∧ digitChar d ≠ MINUS ∧ digitChar d ≠ SPACE := by
  decide

theorem digitChar_zero : digitChar 0 = ZERO := rfl

theorem mapM_digitChar (hd : ∀ d ∈ ds, d < 16) : (ds.map digitChar).mapM digitOf = some ds := by
  induction ds with
  | nil => rfl
  | cons d ds ih =>
    have hfirst := (digitChar_spec d (hd d List.mem_cons_self)).1
    have hrest := ih fun e he => hd e (List.mem_cons_of_mem d he)
    rw [List.map_cons, List.mapM_cons, hfirst, hrest]
    rfl

/-- Digits are read back. -/
theorem readDigits_map (hradix : radix ≤ 16) (hne : ds ≠ []) (hd : ∀ d ∈ ds, d < radix) :
    readDigits radix (ds.map digitChar) = some (valueOf radix ds) := by
  have hread := mapM_digitChar fun d h => lt_of_lt_of_le (hd d h) hradix
  unfold readDigits
  rw [hread, Option.bind_eq_bind, Option.bind_some, if_pos ⟨hne, hd⟩]

/-- No sign and no space is among the digits. -/
theorem mem_map_digitChar {c : Byte} (hd : ∀ d ∈ ds, d < 16) (hc : c ∈ ds.map digitChar) :
    c ≠ MINUS ∧ c ≠ SPACE := by
  obtain ⟨d, hmem, rfl⟩ := List.mem_map.mp hc
  exact (digitChar_spec d (hd d hmem)).2

/-- A sign and digits are read back. -/
theorem readNumber_map (hradix : radix ≤ 16) (hne : ds ≠ []) (hd : ∀ d ∈ ds, d < radix) (v : ℤ) :
    readNumber radix (sign v ++ ds.map digitChar) =
      some (if v < 0 then -(valueOf radix ds : ℤ) else valueOf radix ds) := by
  have hdigits := readDigits_map hradix hne hd
  rw [sign]
  split_ifs with hneg
  · rw [readNumber, List.singleton_append, List.head?_cons, if_pos rfl, List.tail_cons, hdigits]
    rfl
  · have hhead : (ds.map digitChar).head? ≠ some MINUS := by
      intro h
      have hmem := List.mem_of_head? h
      exact (mem_map_digitChar (fun d hm => lt_of_lt_of_le (hd d hm) hradix) hmem).1 rfl
    rw [List.nil_append, readNumber, if_neg hhead, hdigits]
    rfl

/-! ## The buffer -/

theorem store_eq (hp : p < 12) (c : Byte) : buf.store p c = some (update buf p (some c)) :=
  if_pos hp

/-- The characters that have been written are the text. -/
theorem text_eq (h : ∀ i < text.length, buf i = text[i]?) : buf.text text.length = some text := by
  induction text using List.reverseRecOn with
  | nil => rfl
  | append_singleton text c ih =>
    have hlast : buf text.length = some c := by
      rw [h text.length (by simp), List.getElem?_concat_length]
    have hrest : buf.text text.length = some text := by
      refine ih fun i hi => ?_
      rw [h i (by simp; omega), List.getElem?_append_left hi]
    rw [Buf.text] at hrest ⊢
    rw [List.length_append, List.length_singleton, List.range_succ, List.mapM_append, hrest]
    simp [hlast]

/-- The first loop writes the digits in front of `q`. -/
theorem putDigits_spec (hr : 1 < radix) (hq : q ≤ 12)
    (hfits : (places radix num).length ≤ q) :
    ∃ buf', putDigits radix q buf num = some (buf', q - (places radix num).length) ∧
      ∀ i, buf' i = if q - (places radix num).length ≤ i ∧ i < q then
        ((places radix num).map digitChar)[i - (q - (places radix num).length)]? else buf i := by
  induction q generalizing buf num with
  | zero =>
    have hpos := List.length_pos_of_ne_nil (places_ne_nil radix num)
    omega
  | succ q ih =>
    rw [putDigits, store_eq (by omega), Option.bind_eq_bind, Option.bind_some]
    rcases lt_or_ge num radix with hlt | hge
    · rw [places_of_lt hlt, if_neg (not_not.mpr (Nat.div_eq_of_lt hlt)), Nat.mod_eq_of_lt hlt]
      refine ⟨_, rfl, fun i => ?_⟩
      rw [List.length_singleton, Nat.add_sub_cancel]
      by_cases hi : i = q
      · subst hi
        rw [update_self, if_pos ⟨le_rfl, Nat.lt_succ_self i⟩, Nat.sub_self]
        rfl
      · rw [update_of_ne hi, if_neg (by omega)]
    · have hmore : num / radix ≠ 0 := Nat.ne_of_gt (Nat.div_pos hge (by omega))
      rw [places_step hr hge, List.length_append, List.length_singleton] at hfits ⊢
      rw [if_pos hmore]
      obtain ⟨buf', hput, hbuf⟩ := @ih (num / radix)
        (update buf q (some (digitChar (num % radix)))) (by omega) (by omega)
      rw [Nat.add_sub_add_right]
      refine ⟨buf', hput, fun i => ?_⟩
      rw [hbuf i, List.map_append]
      generalize hl : (places radix (num / radix)).length = l at hfits ⊢
      by_cases hi : i = q
      · subst hi
        rw [if_neg (by omega), update_self, if_pos (by omega)]
        have hlast : i - (i - l) = ((places radix (num / radix)).map digitChar).length := by
          rw [List.length_map, hl]
          omega
        rw [hlast, List.map_singleton, List.getElem?_concat_length]
      · rw [update_of_ne hi]
        by_cases hin : q - l ≤ i ∧ i < q
        · rw [if_pos hin, if_pos (by omega),
            List.getElem?_append_left (by rw [List.length_map, hl]; omega)]
        · rw [if_neg hin, if_neg (by omega)]

/-- The second loop moves the digits down. -/
theorem moveDigits_spec (hk : 0 < k) (hp : p ≤ q) (hq : q + k ≤ 12)
    (hsome : ∀ i < k, (buf (q + i)).isSome) :
    ∃ buf', moveDigits k buf p q = some (buf', p + k) ∧ (∀ i < p, buf' i = buf i) ∧
      ∀ i < k, buf' (p + i) = buf (q + i) := by
  induction k generalizing buf p q with
  | zero => omega
  | succ k ih =>
    obtain ⟨c, hc⟩ := Option.isSome_iff_exists.mp (hsome 0 (by omega))
    rw [Nat.add_zero] at hc
    rw [moveDigits, hc, Option.bind_eq_bind, Option.bind_some, store_eq (by omega),
      Option.bind_eq_bind, Option.bind_some]
    by_cases hmore : k = 0
    · subst hmore
      rw [if_neg (not_not.mpr rfl)]
      refine ⟨_, rfl, fun i hi => update_of_ne (by omega) .., fun i hi => ?_⟩
      obtain rfl : i = 0 := by omega
      rw [Nat.add_zero, Nat.add_zero, update_self, hc]
    · have hahead : ∀ i, update buf p (some c) (q + 1 + i) = buf (q + 1 + i) := fun i =>
        update_of_ne (by omega) ..
      obtain ⟨buf', hmove, hbelow, hmoved⟩ := @ih (p + 1) (q + 1) (update buf p (some c))
        (by omega) (by omega) (by omega) fun i hi => by
          rw [hahead, Nat.add_assoc, Nat.add_comm 1 i]
          exact hsome (i + 1) (by omega)
      rw [if_pos hmore]
      refine ⟨buf', by rw [hmove, Nat.add_assoc, Nat.add_comm 1 k], fun i hi => ?_, fun i hi => ?_⟩
      · rw [hbelow i (by omega), update_of_ne (by omega)]
      · by_cases hi0 : i = 0
        · rw [hi0, Nat.add_zero, Nat.add_zero, hbelow p (by omega), update_self, hc]
        · obtain ⟨j, rfl⟩ : ∃ j, i = j + 1 := ⟨i - 1, by omega⟩
          have hnext := hmoved j (by omega)
          rw [hahead, Nat.add_assoc, Nat.add_assoc, Nat.add_comm 1 j] at hnext
          exact hnext

/-- The digits are written behind what is there, and all writes are in `buf`. -/
theorem toAscii_spec (hr : 1 < radix) (hp : p ≤ 1) (hnum : num < radix ^ 11) :
    ∃ buf', toAscii buf p num radix = some (buf', p + (places radix num).length) ∧
      (∀ i < p, buf' i = buf i) ∧
      ∀ i < (places radix num).length, buf' (p + i) = ((places radix num).map digitChar)[i]? := by
  have hdig : MAXDIG = 11 := rfl
  have hpos := List.length_pos_of_ne_nil (places_ne_nil radix num)
  have hle : (places radix num).length ≤ 11 := places_length_le hr (by omega) hnum
  obtain ⟨buf₁, hput, hbuf⟩ := @putDigits_spec radix num (p + MAXDIG) buf hr (by omega) (by omega)
  generalize hl : (places radix num).length = l at *
  have hchar : ∀ i < l, buf₁ (p + MAXDIG - l + i) = ((places radix num).map digitChar)[i]? := by
    intro i hi
    rw [hbuf, if_pos (by omega), Nat.add_sub_cancel_left]
  obtain ⟨buf₂, hmove, hbelow, hmoved⟩ := @moveDigits_spec p (p + MAXDIG - l) l buf₁ hpos
    (by omega) (by omega) fun i hi => by
      rw [hchar i hi, List.getElem?_eq_getElem (by rw [List.length_map]; omega)]
      rfl
  have hcount : p + MAXDIG - (p + MAXDIG - l) = l := by omega
  refine ⟨buf₂, ?_, fun i hi => ?_, fun i hi => (hmoved i hi).trans (hchar i hi)⟩
  · rw [toAscii, hput, Option.bind_eq_bind, Option.bind_some]
    dsimp only
    rw [hcount, hmove]
  · rw [hbelow i hi, hbuf, if_neg (by omega)]

/-- What is in front of the digits, which is a sign or nothing, is kept. -/
theorem written_toAscii {front : List Byte} (hr : 1 < radix) (hfront : front.length ≤ 1)
    (hbuf : ∀ i < front.length, buf i = front[i]?) (hnum : num < radix ^ 11) (zfill : Byte)
    (args : List Arg) :
    written (toAscii buf front.length num radix) zfill args =
      some ⟨front ++ (places radix num).map digitChar, zfill, args⟩ := by
  obtain ⟨buf', hput, hbelow, hdigits⟩ := @toAscii_spec radix num front.length buf hr hfront hnum
  have hlen : (front ++ (places radix num).map digitChar).length =
      front.length + (places radix num).length := by
    rw [List.length_append, List.length_map]
  have htext : buf'.text (front ++ (places radix num).map digitChar).length =
      some (front ++ (places radix num).map digitChar) := by
    refine text_eq fun i hi => ?_
    by_cases hin : i < front.length
    · rw [hbelow i hin, hbuf i hin, List.getElem?_append_left hin]
    · obtain ⟨j, rfl⟩ : ∃ j, i = front.length + j := ⟨i - front.length, by omega⟩
      rw [hdigits j (by omega), List.getElem?_append_right (by omega), Nat.add_sub_cancel_left]
  rw [hlen] at htext
  rw [written, hput, Option.bind_eq_bind, Option.bind_some]
  dsimp only
  rw [htext, Option.bind_eq_bind, Option.bind_some]

/-! ## The conversions of integers -/

/-- The conversions of integers. -/
inductive Conv
  | d
  | u
  | o
  | x
deriving DecidableEq

def Conv.char : Conv → Byte
  | .d => 0x64
  | .u => 0x75
  | .o => 0x6F
  | .x => 0x78

def Conv.base : Conv → ℕ
  | .d => 10
  | .u => 10
  | .o => 8
  | .x => 16

/-- What an argument stands for. -/
def Integer.value : Conv → Integer → ℤ
  | .d, .int n => n.toInt
  | .d, .long n => n.toInt
  | _, .int n => n.toNat
  | _, .long n => n.toNat

def Integer.isLong : Integer → Bool
  | .int _ => false
  | .long _ => true

theorem Conv.base_range (c : Conv) : 1 < c.base ∧ c.base ≤ 16 := by
  cases c <;> decide

/-- Eleven digits are enough for 32 bits. -/
theorem lt_base_pow (c : Conv) (h : num < 2 ^ 32) : num < c.base ^ 11 := by
  have hle : 2 ^ 32 ≤ c.base ^ 11 := by cases c <;> decide
  exact lt_of_lt_of_le h hle

/-- The most negative value too has its magnitude as an unsigned number. -/
theorem toNat_neg_of_neg {b : ℕ} (i : BitVec b) (h : i.toInt < 0) : (-i).toNat = i.toInt.natAbs := by
  have hlt := i.isLt
  rw [BitVec.toInt_eq_toNat_cond] at h ⊢
  rw [BitVec.toNat_neg]
  split_ifs at h ⊢ with hc
  · omega
  · rw [Nat.mod_eq_of_lt (by omega)]
    omega

theorem natAbs_toInt_of_nonneg {b : ℕ} (i : BitVec b) (h : ¬i.toInt < 0) :
    i.toInt.natAbs = i.toNat := by
  have hlt := i.isLt
  rw [BitVec.toInt_eq_toNat_cond] at h ⊢
  split_ifs at h ⊢ with hc
  · omega
  · omega

/-- Digits alone are written. -/
theorem written_nonneg (hr : 1 < radix) (hv : ¬v < 0) (hnum : v.natAbs < radix ^ 11) (zfill : Byte)
    (args : List Arg) :
    written (toAscii Buf.fresh 0 v.natAbs radix) zfill args = some ⟨numeral radix v, zfill, args⟩ := by
  have hwritten := @written_toAscii radix v.natAbs Buf.fresh [] hr (by simp)
    (fun i hi => absurd hi (Nat.not_lt_zero i)) hnum zfill args
  rw [numeral, sign, if_neg hv]
  exact hwritten

/-- A minus and digits are written. -/
theorem written_neg (hr : 1 < radix) (hv : v < 0) (hnum : v.natAbs < radix ^ 11) (zfill : Byte)
    (args : List Arg) :
    written (toAscii (update Buf.fresh 0 (some MINUS)) 1 v.natAbs radix) zfill args =
      some ⟨numeral radix v, zfill, args⟩ := by
  have hfront : ∀ i < [MINUS].length, update Buf.fresh 0 (some MINUS) i = [MINUS][i]? := by
    intro i hi
    obtain rfl : i = 0 := Nat.lt_one_iff.mp hi
    rfl
  have hwritten := written_toAscii hr le_rfl hfront hnum zfill args
  rw [numeral, sign, if_pos hv]
  exact hwritten

/-- `d` prints what the argument stands for. -/
theorem signed_eq (n : Integer) (zfill : Byte) (args : List Arg) :
    signed n.isLong zfill (.num n :: args) = some ⟨numeral 10 (n.value .d), zfill, args⟩ := by
  have hrange : ∀ k : ℕ, k < 2 ^ 32 → k < 10 ^ 11 := fun k => lt_base_pow .d
  cases n with
  | int i =>
    simp only [signed, Integer.isLong, Bool.false_eq_true, if_false, Integer.value, _itoa]
    have hlt := i.isLt
    have hneglt := (-i).isLt
    by_cases hneg : i.toInt < 0
    · have hnat := toNat_neg_of_neg i hneg
      rw [if_pos hneg, store_eq (by decide), Option.bind_eq_bind, Option.bind_some, hnat]
      exact written_neg (by decide) hneg (hrange _ (by omega)) zfill args
    · have hnat := natAbs_toInt_of_nonneg i hneg
      rw [if_neg hneg, ← hnat]
      exact written_nonneg (by decide) hneg (hrange _ (by omega)) zfill args
  | long l =>
    simp only [signed, Integer.isLong, if_true, Integer.value, ltoa]
    have hlt := l.isLt
    have hneglt := (-l).isLt
    by_cases hneg : l.toInt < 0
    · have hnat := toNat_neg_of_neg l hneg
      rw [if_pos hneg, store_eq (by decide), Option.bind_eq_bind, Option.bind_some, hnat]
      exact written_neg (by decide) hneg (hrange _ (by omega)) zfill args
    · have hnat := natAbs_toInt_of_nonneg l hneg
      rw [if_neg hneg, ← hnat]
      exact written_nonneg (by decide) hneg (hrange _ (by omega)) zfill args

/-- `o`, `u` and `x` print the argument as an unsigned number. -/
theorem oxu_eq {c : Conv} (hc : c ≠ .d) (n : Integer) (zfill : Byte) (args : List Arg) :
    oxu c.base n.isLong zfill (.num n :: args) = some ⟨numeral c.base (n.value c), zfill, args⟩ := by
  have hbase := c.base_range.1
  cases n with
  | int i =>
    have hlt := i.isLt
    have hvalue : Integer.value c (.int i) = i.toNat := by
      cases c <;> first | rfl | exact absurd rfl hc
    have hnum : (i.toNat : ℤ).natAbs < c.base ^ 11 := lt_base_pow c (by omega)
    rw [hvalue]
    exact written_nonneg hbase (by omega) hnum zfill args
  | long l =>
    have hlt := l.isLt
    have hvalue : Integer.value c (.long l) = l.toNat := by
      cases c <;> first | rfl | exact absurd rfl hc
    have hnum : (l.toNat : ℤ).natAbs < c.base ^ 11 := lt_base_pow c (by omega)
    rw [hvalue]
    exact written_nonneg hbase (by omega) hnum zfill args

/-- The text of an item is the canonical numeral of its argument. -/
theorem convert_eq (c : Conv) (n : Integer) (zfill : Byte) (ndigit : ℤ) (args : List Arg) :
    convert c.char n.isLong zfill ndigit (.num n :: args) =
      some ⟨numeral c.base (n.value c), zfill, args⟩ := by
  cases c with
  | d =>
    have hconv : ∀ l, convert (Conv.char .d) l zfill ndigit (.num n :: args) =
        signed l zfill (.num n :: args) := by
      intro l
      rw [convert, if_neg (by decide), if_neg (by decide), if_neg (by decide), if_neg (by decide),
        if_neg (by decide), if_neg (by decide), if_neg (by decide), if_pos (by decide)]
    rw [hconv]
    exact signed_eq n zfill args
  | u =>
    have hconv : ∀ l, convert (Conv.char .u) l zfill ndigit (.num n :: args) =
        oxu 10 l zfill (.num n :: args) := by
      intro l
      rw [convert, if_neg (by decide), if_neg (by decide), if_neg (by decide), if_pos (by decide)]
    rw [hconv]
    exact @oxu_eq .u (by decide) n zfill args
  | o =>
    have hconv : ∀ l, convert (Conv.char .o) l zfill ndigit (.num n :: args) =
        oxu 8 l zfill (.num n :: args) := by
      intro l
      rw [convert, if_neg (by decide), if_neg (by decide), if_neg (by decide), if_neg (by decide),
        if_neg (by decide), if_pos (by decide)]
    rw [hconv]
    exact @oxu_eq .o (by decide) n zfill args
  | x =>
    have hconv : ∀ l, convert (Conv.char .x) l zfill ndigit (.num n :: args) =
        oxu 16 l zfill (.num n :: args) := by
      intro l
      rw [convert, if_neg (by decide), if_pos (by decide)]
    rw [hconv]
    exact @oxu_eq .x (by decide) n zfill args

/-! ## Padding -/

/-- What is put out is the numeral with spaces around it, or zeros behind its sign; it reads as the
number, and is as long as the width, or as the numeral. -/
structure Right (radix : ℕ) (v w : ℤ) (out : List Byte) : Prop where
  padded : ∃ before zeros after : ℕ, out = List.replicate before SPACE ++
    (sign v ++ (List.replicate zeros ZERO ++ digits radix v) ++ List.replicate after SPACE)
  reads : readNumber radix (out.filter (· ≠ SPACE)) = some v
  count : (out.length : ℤ) = max w (numeral radix v).length

theorem digits_lt (hr : 1 < radix) (hradix : radix ≤ 16) (v : ℤ) :
    ∀ d ∈ places radix v.natAbs, d < 16 :=
  fun _ hd => lt_of_lt_of_le (lt_of_mem_places hr hd) hradix

/-- No spaces are left out of a sign and digits. -/
theorem filter_sign (hd : ∀ d ∈ ds, d < 16) (v : ℤ) :
    (sign v ++ ds.map digitChar).filter (· ≠ SPACE) = sign v ++ ds.map digitChar := by
  rw [List.filter_eq_self]
  intro c hc
  rw [decide_eq_true_eq]
  rcases List.mem_append.mp hc with hc | hc
  · rw [sign] at hc
    split_ifs at hc
    · rw [List.mem_singleton.mp hc]
      decide
    · exact absurd hc List.not_mem_nil
  · exact (mem_map_digitChar hd hc).2

theorem filter_spaces (k : ℕ) : (List.replicate k SPACE).filter (· ≠ SPACE) = [] := by
  rw [List.filter_eq_nil_iff]
  intro c hc
  rw [(List.mem_replicate.mp hc).2]
  decide

/-- The magnitude and the sign are the number. -/
theorem signed_natAbs (v : ℤ) : (if v < 0 then -(v.natAbs : ℤ) else v.natAbs) = v := by
  split_ifs with h
  · omega
  · omega

/-- A padded numeral reads as the number. -/
theorem reads_of_padded (hr : 1 < radix) (hradix : radix ≤ 16) (v : ℤ) (before zeros after : ℕ) :
    readNumber radix ((List.replicate before SPACE ++ (sign v ++ (List.replicate zeros ZERO ++
      digits radix v) ++ List.replicate after SPACE)).filter (· ≠ SPACE)) = some v := by
  have hdigits : List.replicate zeros ZERO ++ digits radix v =
      (List.replicate zeros 0 ++ places radix v.natAbs).map digitChar := by
    rw [List.map_append, List.map_replicate, digitChar_zero]
    rfl
  have hlt : ∀ d ∈ List.replicate zeros 0 ++ places radix v.natAbs, d < radix := by
    intro d hd
    rcases List.mem_append.mp hd with hd | hd
    · rw [(List.mem_replicate.mp hd).2]
      omega
    · exact lt_of_mem_places hr hd
  have hne : List.replicate zeros 0 ++ places radix v.natAbs ≠ [] :=
    List.append_ne_nil_of_right_ne_nil _ (places_ne_nil radix _)
  rw [hdigits, List.filter_append, List.filter_append, filter_spaces, filter_spaces,
    List.nil_append, List.append_nil, filter_sign fun d hd => lt_of_lt_of_le (hlt d hd) hradix,
    readNumber_map hradix hne hlt, valueOf_zeros_append, valueOf_places hr, signed_natAbs]

variable {ljust : Bool} {zfill : Byte}

/-- The length of a text, as an `int`. -/
theorem int16_length (hlen : text.length ≤ 12) : int16 text.length = text.length :=
  int16_of_range (by omega) (by omega)

/-- Nothing is put before or behind a text that is as long as the width. -/
theorem pad_narrow (hlen : text.length ≤ 12) (hlo : -32768 ≤ w - text.length)
    (hw : w ≤ text.length) : pad ljust zfill w text = text := by
  have hless : (if w - text.length < 0 then 0 else w - text.length) = 0 := by
    split_ifs
    · rfl
    · omega
  have hnone : (if ljust then (0 : ℤ) else int16 (-0)) = 0 := by
    split_ifs
    · rfl
    · rw [neg_zero, int16_of_range (by decide) (by decide)]
  simp only [pad, int16_length hlen, int16_of_range hlo (by omega : w - text.length < 32768), hless,
    hnone, lt_irrefl, if_false, Int.toNat_natCast, List.take_length, Int.toNat_zero,
    List.replicate_zero, List.append_nil]

/-- The padding of a text that is shorter than the width. -/
theorem pad_wide (hlen : text.length ≤ 12) (hlt : text.length < w) (hw : w ≤ 32767) :
    pad ljust zfill w text =
      if ljust then text ++ List.replicate (w - text.length).toNat zfill
      else if text.head? = some MINUS ∧ zfill = ZERO then
        MINUS :: (List.replicate (w - text.length).toNat zfill ++ text.tail)
      else List.replicate (w - text.length).toNat zfill ++ text := by
  have hpos : ¬w - text.length < 0 := by omega
  have htail : text.tail.take ((text.length : ℤ) - 1).toNat = text.tail := by
    rw [List.take_of_length_le]
    rw [List.length_tail]
    omega
  simp only [pad, int16_length hlen,
    int16_of_range (by omega : -32768 ≤ w - text.length) (by omega : w - text.length < 32768),
    if_neg hpos, int16_of_range (by omega : -32768 ≤ -(w - text.length))
      (by omega : -(w - text.length) < 32768), Int.toNat_natCast, List.take_length, htail]
  cases ljust with
  | true => simp only [if_true, if_neg hpos]
  | false =>
    have hneg : -(w - text.length) < 0 := by omega
    simp only [Bool.false_eq_true, if_false, if_pos hneg, neg_neg]

/-- A width that is far below 0 wraps around. -/
theorem pad_wrapped (hlen : text.length ≤ 12) (hlo : w - text.length < -32768) (hw : -32768 ≤ w) :
    ((pad ljust zfill w text).length : ℤ) = w + 65536 := by
  have hwrap : int16 (w - text.length) = w - text.length + 65536 := by
    rw [int16_eq]
    split_ifs <;> omega
  have hpos : ¬w - text.length + 65536 < 0 := by omega
  have hcount : ((text.length + (w - text.length + 65536).toNat : ℕ) : ℤ) = w + 65536 := by omega
  simp only [pad, int16_length hlen, hwrap, if_neg hpos,
    int16_of_range (by omega : -32768 ≤ -(w - text.length + 65536))
      (by omega : -(w - text.length + 65536) < 32768), Int.toNat_natCast, List.take_length]
  cases ljust with
  | true =>
    simp only [if_true, if_neg hpos, List.length_append, List.length_replicate]
    exact hcount
  | false =>
    have hneg : -(w - text.length + 65536) < 0 := by omega
    simp only [Bool.false_eq_true, if_false, if_pos hneg, neg_neg]
    split_ifs with hhead
    · have htail := List.length_tail (l := text)
      have hne : text ≠ [] := by
        rintro rfl
        exact absurd hhead.1 (by decide)
      have hsome := List.length_pos_of_ne_nil hne
      rw [List.length_cons, List.length_append, List.length_replicate, List.length_take, htail]
      omega
    · rw [List.length_append, List.length_replicate]
      omega

/-- Padding of the right length around a numeral is right. -/
theorem right_of_padded {out : List Byte} (hr : 1 < radix) (hradix : radix ≤ 16)
    (before zeros after : ℕ)
    (hout : out = List.replicate before SPACE ++
      (sign v ++ (List.replicate zeros ZERO ++ digits radix v) ++ List.replicate after SPACE))
    (hcount : ((before + zeros + after + (numeral radix v).length : ℕ) : ℤ) =
      max w (numeral radix v).length) : Right radix v w out where
  padded := ⟨before, zeros, after, hout⟩
  reads := by
    rw [hout]
    exact reads_of_padded hr hradix v before zeros after
  count := by
    rw [← hcount, hout]
    simp only [numeral, List.length_append, List.length_replicate]
    omega

/-- Zeros behind the digits of a number make it another one. -/
theorem zeros_behind (hr : 1 < radix) (hradix : radix ≤ 16) (hv : v ≠ 0) (hk : 0 < k) :
    readNumber radix ((numeral radix v ++ List.replicate k ZERO).filter (· ≠ SPACE)) ≠ some v := by
  have htext : numeral radix v ++ List.replicate k ZERO =
      sign v ++ (places radix v.natAbs ++ List.replicate k 0).map digitChar := by
    rw [numeral, List.append_assoc, List.map_append, List.map_replicate, digitChar_zero]
    rfl
  have hlt : ∀ d ∈ places radix v.natAbs ++ List.replicate k 0, d < radix := by
    intro d hd
    rcases List.mem_append.mp hd with hd | hd
    · exact lt_of_mem_places hr hd
    · rw [(List.mem_replicate.mp hd).2]
      omega
  have hne : places radix v.natAbs ++ List.replicate k 0 ≠ [] :=
    List.append_ne_nil_of_left_ne_nil (places_ne_nil radix _) _
  rw [htext, filter_sign fun d hd => lt_of_lt_of_le (hlt d hd) hradix, readNumber_map hradix hne hlt,
    valueOf_append_zeros, valueOf_places hr]
  have hmore : v.natAbs < v.natAbs * radix ^ k := by
    have hpow : 1 < radix ^ k := Nat.one_lt_pow (by omega) hr
    exact (Nat.lt_mul_iff_one_lt_right (Int.natAbs_pos.mpr hv)).mpr hpow
  generalize v.natAbs * radix ^ k = m at hmore
  intro h
  have hval := Option.some.inj h
  split_ifs at hval
  · omega
  · omega

/-- When an item is right: the width does not wrap around, and no zeros are put behind the digits of
a number other than 0. -/
def Fills (minus zero : Bool) (radix : ℕ) (v w : ℤ) : Prop :=
  -32768 ≤ w - (numeral radix v).length ∧
    ¬(minus = true ∧ zero = true ∧ (numeral radix v).length < w ∧ v ≠ 0)

/-- The first character of a numeral is its sign. -/
theorem numeral_head (hr : 1 < radix) (hradix : radix ≤ 16) (v : ℤ) :
    (numeral radix v).head? = some MINUS ↔ v < 0 := by
  rw [numeral, sign]
  split_ifs with hneg
  · exact iff_of_true rfl hneg
  · refine iff_of_false (fun h => ?_) hneg
    exact (mem_map_digitChar (digits_lt hr hradix v) (List.mem_of_head? h)).1 rfl

/-- The padding of an item is right exactly then. -/
theorem pad_right_iff (hr : 1 < radix) (hradix : radix ≤ 16) (hlen : (numeral radix v).length ≤ 12)
    (hlo : -32768 ≤ w) (hhi : w ≤ 32767) (minus zero : Bool) :
    Right radix v w (pad minus (if zero then ZERO else SPACE) w (numeral radix v)) ↔
      Fills minus zero radix v w := by
  by_cases hwrap : w - (numeral radix v).length < -32768
  · refine iff_of_false (fun h => ?_) fun h => absurd h.1 (by omega)
    have hcount := h.count
    rw [pad_wrapped hlen hwrap hlo] at hcount
    omega
  by_cases hnarrow : w ≤ (numeral radix v).length
  · rw [pad_narrow hlen (by omega) hnarrow]
    refine iff_of_true (right_of_padded hr hradix 0 0 0 ?_ (by omega)) ⟨by omega, fun h => ?_⟩
    · simp only [List.replicate_zero, List.nil_append, List.append_nil, numeral]
    · omega
  have hwide : ((numeral radix v).length : ℤ) < w := by omega
  rw [pad_wide hlen hwide hhi]
  generalize hk : (w - (numeral radix v).length).toNat = k
  have hkpos : 0 < k := by omega
  cases minus with
  | true =>
    rw [if_pos rfl]
    cases zero with
    | false =>
      refine iff_of_true (right_of_padded hr hradix 0 0 k ?_ (by omega)) ⟨by omega, fun h => ?_⟩
      · simp only [List.replicate_zero, List.nil_append, numeral, Bool.false_eq_true, if_false]
      · exact absurd h.2.1 (by decide)
    | true =>
      rw [if_pos rfl]
      by_cases hv : v = 0
      · -- A 0 is filled up with zeros.
        subst hv
        refine iff_of_true (right_of_padded hr hradix 0 k 0 ?_ (by omega))
          ⟨by omega, fun h => h.2.2.2 rfl⟩
        have hzero : numeral radix 0 = [ZERO] := rfl
        have hdigit : digits radix 0 = [ZERO] := rfl
        have hsign : sign 0 = [] := rfl
        rw [hzero, hdigit, hsign, List.replicate_zero, List.append_nil, List.nil_append,
          List.nil_append, ← List.replicate_succ', List.singleton_append,
          ← List.replicate_succ]
      · refine iff_of_false (fun h => ?_) fun h => h.2 ⟨rfl, rfl, hwide, hv⟩
        exact zeros_behind hr hradix hv hkpos h.reads
  | false =>
    rw [if_neg Bool.false_ne_true]
    have hfills : Fills false zero radix v w :=
      ⟨by omega, fun h => absurd h.1 Bool.false_ne_true⟩
    refine iff_of_true ?_ hfills
    cases zero with
    | false =>
      have hspace : ¬((numeral radix v).head? = some MINUS ∧
          (if false = true then ZERO else SPACE) = ZERO) := fun h => absurd h.2 (by decide)
      rw [if_neg hspace]
      refine right_of_padded hr hradix k 0 0 ?_ (by omega)
      simp only [List.replicate_zero, List.nil_append, List.append_nil, numeral,
        Bool.false_eq_true, if_false]
    | true =>
      refine right_of_padded hr hradix 0 k 0 ?_ (by omega)
      by_cases hneg : v < 0
      · rw [if_pos ⟨(numeral_head hr hradix v).mpr hneg, rfl⟩, if_pos rfl, numeral, sign, if_pos hneg]
        simp only [List.replicate_zero, List.nil_append, List.append_nil, List.singleton_append,
          List.tail_cons]
      · rw [if_neg fun h => hneg ((numeral_head hr hradix v).mp h.1), if_pos rfl, numeral, sign,
          if_neg hneg]
        simp only [List.replicate_zero, List.nil_append, List.append_nil]

/-! ## Items in a format -/

/-- How the width is given: by digits, or by an argument. -/
inductive Width
  | digits (text : List Byte)
  | star (k : BitVec 16)

def Width.chars : Width → List Byte
  | .digits text => text
  | .star _ => [STAR]

def Width.args : Width → List Arg
  | .digits _ => []
  | .star k => [.num (.int k)]

/-- What the digits of a width stand for. -/
def decimal (text : List Byte) (n : ℕ) : ℕ := text.foldl (fun n c => n * 10 + (c.toNat - 48)) n

def Width.value : Width → ℤ
  | .digits text => decimal text 0
  | .star k => k.toInt

/-- An item for an integer. -/
structure Spec where
  minus : Bool
  zero : Bool
  width : Width
  conv : Conv
  n : Integer

/-- The item in the format, with its `%`. -/
def Spec.chars (s : Spec) : List Byte :=
  PERCENT :: ((if s.minus then [MINUS] else []) ++ ((if s.zero then [ZERO] else []) ++
    (s.width.chars ++ ((if s.n.isLong then [0x6C] else []) ++ [s.conv.char]))))

def Spec.args (s : Spec) : List Arg := s.width.args ++ [.num s.n]

/-- The width is a `short`, and does not begin with a zero that is taken for the flag. -/
def Spec.Fits (s : Spec) : Prop :=
  match s.width with
  | .digits text => (∀ c ∈ text, isdigit c) ∧ decimal text 0 ≤ 32767 ∧
      (s.zero = false → text.head? ≠ some ZERO)
  | .star _ => True

variable {c : Byte} {fmt : List Byte} {args : List Arg}

theorem isdigit_range (h : isdigit c = true) : 48 ≤ c.toNat ∧ c.toNat ≤ 57 := by
  simp only [isdigit, ZERO, NINE, Bool.and_eq_true, decide_eq_true_eq, BitVec.le_def] at h
  exact h

theorem le_decimal (text : List Byte) (n : ℕ) : n ≤ decimal text n := by
  induction text generalizing n with
  | nil => exact le_rfl
  | cons c text ih =>
    have hrest := ih (n * 10 + (c.toNat - 48))
    rw [decimal] at hrest ⊢
    rw [List.foldl_cons]
    omega

theorem number_digit (h : isdigit c = true) (n : ℤ) :
    number (c :: fmt) args n = number fmt args (int16 (int16 (n * 10) + (c.toNat - 48))) := by
  conv_lhs => unfold number
  exact if_pos h

/-- The digits of a width are read, as long as it is a `short`. -/
theorem number_digits {text : List Byte} {n : ℕ} (hd : ∀ c ∈ text, isdigit c)
    (hsmall : decimal text n ≤ 32767) (fmt : List Byte) (args : List Arg) :
    number (text ++ fmt) args n = number fmt args (decimal text n) := by
  induction text generalizing n with
  | nil => rfl
  | cons c text ih =>
    have hc := hd c List.mem_cons_self
    obtain ⟨hlo, hhi⟩ := isdigit_range hc
    have hstep : decimal (c :: text) n = decimal text (n * 10 + (c.toNat - 48)) := rfl
    have hle := le_decimal text (n * 10 + (c.toNat - 48))
    rw [hstep] at hsmall ⊢
    have hten : int16 ((n : ℤ) * 10) = n * 10 := int16_of_range (by omega) (by omega)
    have hnext : int16 ((n : ℤ) * 10 + (c.toNat - 48)) = (n * 10 + (c.toNat - 48) : ℕ) := by
      rw [int16_of_range (by omega) (by omega)]
      omega
    rw [List.cons_append, number_digit hc, hten, hnext]
    exact ih (fun e he => hd e (List.mem_cons_of_mem c he)) hsmall

/-- What is no digit and no `*` ends a width. -/
theorem number_end (hdigit : isdigit c = false) (hstar : c ≠ STAR) (n : ℤ) :
    number (c :: fmt) args n = some (c, n, fmt, args) := by
  unfold number
  rw [hdigit, if_neg Bool.false_ne_true, if_neg hstar]

/-- The width of an item is read. -/
theorem number_width (s : Spec) (hfits : s.Fits) (hdigit : isdigit c = false) (hstar : c ≠ STAR) :
    number (s.width.chars ++ c :: fmt) (s.width.args ++ args) 0 =
      some (c, s.width.value, fmt, args) := by
  rw [Spec.Fits] at hfits
  cases hw : s.width with
  | digits text =>
    rw [hw] at hfits
    have hread := @number_digits text 0 hfits.1 hfits.2.1 (c :: fmt) args
    exact hread.trans (number_end hdigit hstar _)
  | star k =>
    have hrange : int16 (int16 (0 * 10) + k.toInt) = k.toInt := by
      rw [int16_int16_add, zero_mul, zero_add]
      have hlo := BitVec.le_toInt k
      have hhi := BitVec.toInt_lt (x := k)
      exact int16_of_range (by simpa using hlo) (by simpa using hhi)
    have hread : number (STAR :: c :: fmt) (.num (.int k) :: args) 0 =
        number (c :: fmt) args (int16 (int16 (0 * 10) + k.toInt)) := rfl
    rw [hrange] at hread
    exact hread.trans (number_end hdigit hstar _)

theorem flag_set {f : Byte} {b : Bool} (hne : b = false → c ≠ f) :
    flag f ((if b then [f] else []) ++ c :: fmt) = some (b, c :: fmt) := by
  cases b with
  | true => exact if_pos rfl
  | false => exact if_neg (hne rfl)

/-- The characters that follow a flag are none. -/
theorem item_head (s : Spec) (hfits : s.Fits) (fmt : List Byte) :
    ∃ c rest, s.width.chars ++ ((if s.n.isLong then [0x6C] else []) ++ s.conv.char :: fmt) =
      c :: rest ∧ c ≠ MINUS ∧ (s.zero = false → c ≠ ZERO) := by
  rw [Spec.Fits] at hfits
  have hconv : s.conv.char ≠ MINUS ∧ s.conv.char ≠ ZERO := by
    cases s.conv <;> decide
  cases hw : s.width with
  | star k => exact ⟨STAR, _, rfl, by decide, fun _ => by decide⟩
  | digits text =>
    rw [hw] at hfits
    cases text with
    | nil =>
      cases s.n.isLong with
      | true => exact ⟨0x6C, _, rfl, by decide, fun _ => by decide⟩
      | false => exact ⟨s.conv.char, _, rfl, hconv.1, fun _ => hconv.2⟩
    | cons c text =>
      refine ⟨c, _, rfl, ?_, fun hz h => hfits.2.2 hz (by rw [h]; rfl)⟩
      rintro rfl
      exact absurd (hfits.1 MINUS List.mem_cons_self) (by decide)

/-- The rest of an item is read when its flags and its width have been. -/
theorem convert_item (s : Spec) (fmt : List Byte) (args : List Arg) :
    ∃ c rest, (if s.n.isLong then [0x6C] else []) ++ s.conv.char :: fmt = c :: rest ∧
      isdigit c = false ∧ c ≠ STAR ∧ precision c rest args = some (c, 0, rest, args) ∧
      longFlag c rest = some (s.n.isLong, s.conv.char, fmt) := by
  have hconv : isdigit s.conv.char = false ∧ s.conv.char ≠ STAR ∧ s.conv.char ≠ FULL_STOP ∧
      ¬(s.conv.char = 0x6C ∨ s.conv.char = 0x4C) ∧ s.conv.char ≠ 0 := by
    cases s.conv <;> decide
  cases s.n.isLong with
  | true =>
    exact ⟨0x6C, s.conv.char :: fmt, rfl, by decide, by decide, if_neg (by decide), if_pos hconv.2.2.2.2⟩
  | false =>
    exact ⟨s.conv.char, fmt, rfl, hconv.1, hconv.2.1, if_neg hconv.2.2.1, if_neg hconv.2.2.2.1⟩

/-- The flags are read. -/
theorem flags_eq (s : Spec) (hminus : c ≠ MINUS) (hzero : s.zero = false → c ≠ ZERO) :
    ∃ d rest, (if s.zero then [ZERO] else []) ++ c :: fmt = d :: rest ∧
      flag MINUS ((if s.minus then [MINUS] else []) ++ d :: rest) = some (s.minus, d :: rest) ∧
      flag ZERO (d :: rest) = some (s.zero, c :: fmt) := by
  have hflag := @flag_set c fmt ZERO s.zero hzero
  obtain ⟨d, rest, hd, hne⟩ : ∃ d rest, (if s.zero then [ZERO] else []) ++ c :: fmt = d :: rest ∧
      d ≠ MINUS := by
    cases s.zero with
    | true => exact ⟨ZERO, c :: fmt, rfl, by decide⟩
    | false => exact ⟨c, fmt, rfl, hminus⟩
  rw [hd] at hflag
  exact ⟨d, rest, hd, flag_set fun _ => hne, hflag⟩

/-- An item puts out the padded numeral of its argument. -/
theorem item_eq (s : Spec) (hfits : s.Fits) (fmt : List Byte) (args : List Arg) :
    item (s.chars.tail ++ fmt) (s.args ++ args) =
      some (pad s.minus (if s.zero then ZERO else SPACE) s.width.value
        (numeral s.conv.base (s.n.value s.conv)), fmt, args) := by
  obtain ⟨c, rest, hcons, hminus, hzero⟩ := item_head s hfits fmt
  obtain ⟨d, rest', hd, hljust, hzfill⟩ := @flags_eq c rest s hminus hzero
  obtain ⟨e, rest'', he, hdigit, hstar, hprecision, hlong⟩ := convert_item s fmt (.num s.n :: args)
  have hwidth := @number_width e rest'' (.num s.n :: args) s hfits hdigit hstar
  have htext : s.chars.tail ++ fmt = (if s.minus then [MINUS] else []) ++ d :: rest' := by
    rw [← hd, ← hcons, Spec.chars, List.tail_cons]
    simp only [List.append_assoc, List.singleton_append]
  have hargs : s.args ++ args = s.width.args ++ .num s.n :: args := by
    rw [Spec.args, List.append_assoc, List.singleton_append]
  rw [← he, hcons] at hwidth
  simp only [item, htext, hargs, hljust, hzfill, hwidth, hprecision, hlong, convert_eq,
    Option.bind_eq_bind, Option.bind_some]

/-! ## The loop over a format -/

variable {fmt' : List Byte} {args' : List Arg} {n n' : ℤ} {out : List Byte}

theorem flag_length {f : Byte} {b : Bool} (h : flag f fmt = some (b, fmt')) :
    fmt'.length ≤ fmt.length := by
  cases fmt with
  | nil => exact absurd h (by simp [flag])
  | cons c fmt =>
    rw [flag] at h
    split_ifs at h
    · obtain ⟨-, rfl⟩ := Prod.mk.inj (Option.some.inj h)
      exact Nat.le_succ _
    · obtain ⟨-, rfl⟩ := Prod.mk.inj (Option.some.inj h)
      exact le_rfl

theorem number_length (h : number fmt args n = some (c, n', fmt', args')) :
    fmt'.length ≤ fmt.length := by
  induction fmt generalizing args n with
  | nil => exact absurd h (by simp [number])
  | cons d fmt ih =>
    unfold number at h
    split_ifs at h
    · exact Nat.le_succ_of_le (ih h)
    · split at h
      · exact Nat.le_succ_of_le (ih h)
      · cases h
    · simp only [Option.some.injEq, Prod.mk.injEq] at h
      rw [← h.2.2.1]
      exact Nat.le_succ _

theorem precision_length {d : Byte} (h : precision c fmt args = some (d, n', fmt', args')) :
    fmt'.length ≤ fmt.length := by
  rw [precision] at h
  split_ifs at h
  · exact number_length h
  · simp only [Option.some.injEq, Prod.mk.injEq] at h
    rw [h.2.2.1]

theorem longFlag_length {d : Byte} {b : Bool} (h : longFlag c fmt = some (b, d, fmt')) :
    fmt'.length ≤ fmt.length := by
  unfold longFlag at h
  split_ifs at h
  · cases fmt with
    | nil => cases h
    | cons e fmt =>
      dsimp only at h
      split_ifs at h
      · simp only [Option.some.injEq, Prod.mk.injEq] at h
        rw [← h.2.2]
        exact Nat.le_succ _
      · simp only [Option.some.injEq, Prod.mk.injEq] at h
        rw [h.2.2]
  · simp only [Option.some.injEq, Prod.mk.injEq] at h
    rw [h.2.2]

/-- An item does not go back in the format. -/
theorem item_length (h : item fmt args = some (out, fmt', args')) : fmt'.length ≤ fmt.length := by
  simp only [item, Option.bind_eq_bind, Option.bind_eq_some_iff, Prod.exists] at h
  obtain ⟨_, fmt₁, h₁, _, fmt₂, h₂, _, _, fmt₃, _, h₃, _, _, fmt₄, _, h₄, _, _, fmt₅, h₅, r, -, h₆⟩ := h
  simp only [Option.some.injEq, Prod.mk.injEq] at h₆
  rw [← h₆.2.1]
  have hle₁ := flag_length h₁
  have hle₂ := flag_length h₂
  have hle₃ := number_length h₃
  have hle₄ := precision_length h₄
  have hle₅ := longFlag_length h₅
  omega

/-- The loop has turns enough when there are as many as characters. -/
theorem format_turns {i j : ℕ} (hi : fmt.length ≤ i) (hj : fmt.length ≤ j) (args : List Arg) :
    format i fmt args = format j fmt args := by
  induction i generalizing j fmt args with
  | zero =>
    obtain rfl := List.length_eq_zero_iff.mp (Nat.le_zero.mp hi)
    cases j <;> rfl
  | succ i ih =>
    cases fmt with
    | nil => cases j <;> rfl
    | cons c fmt =>
      rw [List.length_cons] at hi hj
      obtain ⟨j, rfl⟩ : ∃ k, j = k + 1 := ⟨j - 1, by omega⟩
      rw [format, format]
      split_ifs
      · rfl
      · rw [@ih fmt j (by omega) (by omega) args]
      · cases hitem : item fmt args with
        | none => rfl
        | some r =>
          obtain ⟨out, fmt', args'⟩ := r
          have hle := item_length hitem
          simp only [Option.bind_eq_bind, Option.bind_some]
          rw [@ih fmt' j (by omega) (by omega) args']

/-- A width is a `short`. -/
theorem width_range (s : Spec) (hfits : s.Fits) : -32768 ≤ s.width.value ∧ s.width.value ≤ 32767 := by
  rw [Spec.Fits] at hfits
  cases hw : s.width with
  | digits text =>
    rw [hw] at hfits
    have hsmall := hfits.2.1
    simp only [Width.value]
    omega
  | star k =>
    have hlo := BitVec.le_toInt k
    have hhi := BitVec.toInt_lt (x := k)
    simp only [Width.value]
    norm_num at hlo hhi
    omega

/-- A numeral fits in `buf`. -/
theorem numeral_length (c : Conv) (n : Integer) : (numeral c.base (n.value c)).length ≤ 12 := by
  have hvalue : (n.value c).natAbs < 2 ^ 32 := by
    have hsigned : ∀ {b : ℕ} (i : BitVec b), i.toInt.natAbs ≤ 2 ^ b := by
      intro b i
      have hlt := i.isLt
      rw [BitVec.toInt_eq_toNat_cond]
      split_ifs
      · omega
      · omega
    cases n with
    | int i =>
      have hlt := i.isLt
      have hle := hsigned i
      cases c <;> simp only [Integer.value] <;> omega
    | long l =>
      have hlt := l.isLt
      have hneg := toNat_neg_of_neg l
      have hnonneg := natAbs_toInt_of_nonneg l
      have hneglt := (-l).isLt
      cases c <;> simp only [Integer.value] <;> omega
  have hdigits := places_length_le c.base_range.1 (by decide) (lt_base_pow c hvalue)
  have hsign : (sign (n.value c)).length ≤ 1 := by
    rw [sign]
    split_ifs <;> decide
  rw [numeral, List.length_append, digits, List.length_map]
  omega

/-- What is put out for an item of an integer, in any format, with writes inside `buf` only: it is
right exactly where no zeros come behind the digits of a number other than 0, and the width does not
wrap around. -/
theorem printf_item (s : Spec) (hfits : s.Fits) :
    ∃ out, (∀ fmt args, _doprintf (s.chars ++ fmt) (s.args ++ args) =
        (_doprintf fmt args).map (out ++ ·)) ∧
      (Right s.conv.base (s.n.value s.conv) s.width.value out ↔
        Fills s.minus s.zero s.conv.base (s.n.value s.conv) s.width.value) := by
  obtain ⟨hr, hradix⟩ := s.conv.base_range
  obtain ⟨hlo, hhi⟩ := width_range s hfits
  have hlen := numeral_length s.conv s.n
  refine ⟨_, fun fmt args => ?_, pad_right_iff hr hradix hlen hlo hhi s.minus s.zero⟩
  have hcons : s.chars ++ fmt = PERCENT :: (s.chars.tail ++ fmt) := rfl
  have hturns : fmt.length ≤ (s.chars.tail ++ fmt).length := by
    rw [List.length_append]
    omega
  rw [_doprintf, hcons, List.length_cons, format, if_neg (by decide), if_neg (not_not.mpr rfl),
    item_eq s hfits, Option.bind_eq_bind, Option.bind_some]
  dsimp only
  rw [format_turns hturns le_rfl, _doprintf]

/-- The item `%06ld` for -42. -/
def zeroFilled : Spec := ⟨false, true, .digits [0x36], .d, .long (-42)⟩

/-- It is right. -/
theorem printf_item_zeroFilled :
    ∃ out, (∀ fmt args, _doprintf (zeroFilled.chars ++ fmt) (zeroFilled.args ++ args) =
        (_doprintf fmt args).map (out ++ ·)) ∧
      (Right 10 (-42) 6 out ↔ Fills false true 10 (-42) 6) :=
  printf_item zeroFilled ⟨by decide, by decide, by decide⟩

/-- The item `%-05d` makes 42000 of 42. -/
theorem minus_zero_fills :
    _doprintf [PERCENT, MINUS, ZERO, 0x35, 0x64, 0] [.num (.int 42)] =
        some [0x34, 0x32, ZERO, ZERO, ZERO] ∧
      ¬Right 10 42 5 [0x34, 0x32, ZERO, ZERO, ZERO] := by
  refine ⟨by decide +kernel, fun h => ?_⟩
  have hreads : readNumber 10 ([0x34, 0x32, ZERO, ZERO, ZERO].filter (· ≠ SPACE)) = some 42000 := by
    decide +kernel
  exact absurd (hreads.symm.trans h.reads) (by decide)

end Minix.Printf
