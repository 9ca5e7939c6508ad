import Minix.Ansi.Scanf

/-!
# When a conversion of `scanf` is all or nothing

A conversion is right (`Made.Right`) if it stores the value of the longest numeral that its input
begins with, as far as the width goes, and leaves what is behind it, or stores nothing where there
is no numeral. This is so exactly where `Made.Meets` holds of the input: a sign is not counted in
the width, the mark of hexadecimal is taken without a digit behind it, but not behind a sign, and an
argument is stored into before it is known whether there was a digit (`scanf_exact`).
-/

namespace Minix.Scanf

open Ansi (Ascii isspace isdigit isupper PLUS MINUS ZERO LOWER_X UPPER_X isDigitOf digitVal numeral
  Numeral IsHexMark longest skipSign hexTail findLead)

variable {string format : List Ascii} {s t : Scan} {i j n base width : ℕ}

/-! ## Positions -/

/-- The current character is that at a position. -/
def Scan.at (string : List Ascii) (s : Scan) (i : ℕ) : Scan :=
  { s with ic := string[i]?, rnc_arg := i + 1 }

theorem rnc_at (hi : i < string.length) : rnc string (s.at string i) = some (s.at string (i + 1)) :=
  if_pos hi

@[simp]
theorem at_at : (s.at string i).at string j = s.at string j := rfl

@[simp]
theorem input_at : (s.at string i).input string = string.drop i := by
  rw [Scan.input, Scan.at, Nat.add_sub_cancel]

@[simp]
theorem record_at (m : Made) : (s.at string i).record m = (s.record m).at string i := rfl

@[simp]
theorem ic_at : (s.at string i).ic = (string.drop i).head? := by
  rw [Scan.at, List.head?_drop]

/-- The current character is there. -/
theorem lt_of_ic {c : Ascii} {rest : List Ascii} (h : string.drop i = c :: rest) :
    i < string.length ∧ string.drop (i + 1) = rest := by
  have hlt : i < string.length := by
    by_contra hge
    rw [List.drop_eq_nil_of_le (by omega)] at h
    cases h
  rw [List.drop_eq_getElem_cons hlt] at h
  exact ⟨hlt, (List.cons.inj h).2⟩

/-- White space is skipped up to the first other character. -/
theorem skipBlanks_at (hn : string.length < i + n) (hi : i ≤ string.length) :
    ∃ j, i ≤ j ∧ j ≤ string.length ∧ skipBlanks string n (s.at string i) = some (s.at string j) ∧
      (string.drop j).head?.any isspace = false := by
  induction n generalizing i with
  | zero => omega
  | succ n ih =>
    rw [skipBlanks, ic_at]
    cases hr : string.drop i with
    | nil => exact ⟨i, le_rfl, hi, if_neg (by simp), by rw [hr]; rfl⟩
    | cons c rest =>
      obtain ⟨hlt, -⟩ := lt_of_ic hr
      by_cases hc : isspace c = true
      · obtain ⟨j, hij, hj, hskip, hhead⟩ := @ih (i + 1) (by omega) hlt
        refine ⟨j, by omega, hj, ?_, hhead⟩
        rw [List.head?_cons, Option.any_some, if_pos hc, rnc_at hlt, Option.bind_some, hskip]
      · refine ⟨i, le_rfl, hi, ?_, ?_⟩
        · rw [List.head?_cons, Option.any_some, if_neg hc]
        · rw [hr, List.head?_cons, Option.any_some]
          exact Bool.eq_false_iff.mpr hc

/-! ## Digits -/

/-- The bases of the conversions. -/
def IsBase (base : ℕ) : Prop := base = 8 ∨ base = 10 ∨ base = 16

/-- The digits are those of the base. -/
theorem digitIn_eq (hbase : IsBase base) (c : Ascii) :
    digitIn base c = if isDigitOf base c then digitVal c else none := by
  revert c
  rcases hbase with rfl | rfl | rfl <;> decide

/-- The digits that a string begins with. -/
def digits (base : ℕ) (l : List Ascii) : List Ascii := l.takeWhile (isDigitOf base)

/-- The number that more digits make of one. -/
def onward (base n : ℕ) (ds : List Ascii) : ℕ :=
  ds.foldl (fun n c => n * base + (digitVal c).getD 0) n

/-- The loop takes the digits that are there, up to the width. -/
theorem digitLoop_at (hbase : IsBase base) (width n : ℕ) (done_some : Bool) (s : Scan) (i : ℕ) :
    digitLoop string base width (BitVec.ofNat 32 n) done_some (s.at string i) =
      some (BitVec.ofNat 32 (onward base n ((digits base (string.drop i)).take width)),
        done_some || decide (0 < ((digits base (string.drop i)).take width).length),
        s.at string (i + ((digits base (string.drop i)).take width).length)) := by
  induction width generalizing n done_some i with
  | zero => simp [digitLoop, onward]
  | succ width ih =>
    unfold digitLoop
    rw [ic_at]
    cases hr : string.drop i with
    | nil => simp [digits, onward]
    | cons c rest =>
      obtain ⟨hlt, hrest⟩ := lt_of_ic hr
      rw [List.head?_cons, Option.bind_some, digitIn_eq hbase]
      by_cases hc : isDigitOf base c = true
      · obtain ⟨d, hd⟩ := Option.isSome_iff_exists.mp (Ansi.isDigitOf_isSome hc)
        have htake : digits base (c :: rest) = c :: digits base rest :=
          List.takeWhile_cons_of_pos hc
        have hval : BitVec.ofNat 32 n * BitVec.ofNat 32 base + BitVec.ofNat 32 d =
            BitVec.ofNat 32 (n * base + d) := by
          rw [BitVec.ofNat_add, BitVec.ofNat_mul]
        have honward : onward base n (c :: (digits base rest).take width) =
            onward base (n * base + d) ((digits base rest).take width) := by
          rw [onward, List.foldl_cons, hd]
          rfl
        rw [if_pos hc, hd]
        dsimp only
        rw [rnc_at hlt, Option.bind_some, hval, ih, hrest, htake, List.take_succ_cons, honward,
          List.length_cons]
        simp only [Bool.true_or, Nat.succ_pos, decide_true, Bool.or_true, Nat.add_assoc,
          Nat.add_comm 1]
      · have htake : digits base (c :: rest) = [] := List.takeWhile_cons_of_neg hc
        rw [if_neg hc, htake]
        simp [onward]

/-! ## Signs and marks -/

instance (lead : List Ascii) : Decidable (IsHexMark lead) := inferInstanceAs (Decidable (_ ∨ _))

/-- The sign that is taken, unless the width is 0. -/
def signOf (width : ℕ) (l : List Ascii) : List Ascii := if width = 0 then [] else (skipSign l).1

theorem signMark_at (width : ℕ) (s : Scan) (i : ℕ) :
    signMark string width (s.at string i) =
      some (decide (signOf width (string.drop i) = [MINUS]),
        s.at string (i + (signOf width (string.drop i)).length)) := by
  rw [signMark, ic_at, signOf]
  by_cases hw : width = 0
  · simp [hw]
  cases hr : string.drop i with
  | nil => simp [hw, skipSign]
  | cons c rest =>
    obtain ⟨hlt, -⟩ := lt_of_ic hr
    rw [List.head?_cons, if_neg hw]
    by_cases hplus : c = PLUS
    · subst hplus
      rw [if_pos ⟨hw, rfl⟩, rnc_at hlt]
      rfl
    by_cases hminus : c = MINUS
    · subst hminus
      rw [if_neg fun h => hplus (Option.some.inj h.2), if_pos ⟨hw, rfl⟩, rnc_at hlt]
      rfl
    · rw [if_neg fun h => hplus (Option.some.inj h.2), if_neg fun h => hminus (Option.some.inj h.2),
        skipSign, if_neg (not_or.mpr ⟨hplus, hminus⟩)]
      rfl

theorem tolower_x (c : Ascii) : tolower c = LOWER_X ↔ c = LOWER_X ∨ c = UPPER_X := by
  revert c
  decide

/-- The mark of hexadecimal is taken if the width allows for it. -/
theorem hexMark_mark (hw : 2 ≤ width) (hm : IsHexMark ((string.drop i).take 2)) :
    hexMark string 16 width (s.at string i) = some (width - 2, true, s.at string (i + 2)) := by
  obtain ⟨x, rest, hr, hx⟩ : ∃ x rest, string.drop i = ZERO :: x :: rest ∧ tolower x = LOWER_X := by
    have htake := (List.take_append_drop 2 (string.drop i)).symm
    rcases hm with hm | hm
    · rw [hm] at htake
      exact ⟨LOWER_X, _, htake, by decide⟩
    · rw [hm] at htake
      exact ⟨UPPER_X, _, htake, by decide⟩
  obtain ⟨hlt, hr1⟩ := lt_of_ic hr
  obtain ⟨hlt1, -⟩ := lt_of_ic hr1
  rw [hexMark, ic_at, hr, List.head?_cons, if_pos ⟨rfl, hw, rfl⟩, rnc_at hlt, Option.bind_eq_bind,
    Option.bind_some, ic_at, hr1, List.head?_cons, Option.map_some, hx, if_pos rfl, rnc_at hlt1,
    Option.bind_some]

/-- Otherwise the current character is what it was. -/
theorem hexMark_plain (h : ¬(base = 16 ∧ 2 ≤ width ∧ IsHexMark ((string.drop i).take 2))) :
    hexMark string base width (s.at string i) = some (width, false, s.at string i) := by
  rw [hexMark, ic_at]
  by_cases hzero : base = 16 ∧ 2 ≤ width ∧ (string.drop i).head? = some ZERO
  · obtain ⟨hbase, hw, hhead⟩ := hzero
    obtain ⟨rest, hr⟩ : ∃ rest, string.drop i = ZERO :: rest := by
      cases hr : string.drop i with
      | nil =>
        rw [hr] at hhead
        cases hhead
      | cons c rest =>
        rw [hr] at hhead
        exact ⟨rest, by rw [Option.some.inj hhead]⟩
    obtain ⟨hlt, hr1⟩ := lt_of_ic hr
    have hx : ((s.at string (i + 1)).ic.map tolower) ≠ some LOWER_X := by
      rw [ic_at, hr1]
      intro hx
      cases rest with
      | nil => cases hx
      | cons x rest =>
        refine h ⟨hbase, hw, ?_⟩
        rw [hr]
        rcases (tolower_x x).mp (Option.some.inj hx) with rfl | rfl
        · exact Or.inl rfl
        · exact Or.inr rfl
    have hback : { ugc (s.at string (i + 1)) with ic := some ZERO } = s.at string i := by
      have hic : string[i]? = some ZERO := by
        rw [← List.head?_drop, hr]
        rfl
      simp only [ugc, Scan.at, hic, Nat.add_sub_cancel]
    rw [if_pos ⟨hbase, hw, hhead⟩, rnc_at hlt, Option.bind_eq_bind, Option.bind_some, if_neg hx,
      hback]
  · rw [if_neg hzero]

/-! ## A conversion -/

/-- What the code takes behind a mark, or where there is none: the sign and the digits. -/
def takenDigits (base width : ℕ) (l : List Ascii) : List Ascii :=
  (digits base (l.drop (signOf width l).length)).take width

/-- The value that the code stores. -/
def takenCell (base width : ℕ) (longflag : Bool) (l : List Ascii) : Cell :=
  let n := BitVec.ofNat 32 (onward base 0 (takenDigits base width l))
  cellOf longflag (if signOf width l = [MINUS] then -n else n)

/-- A conversion, when the mark has been taken or there is none. -/
theorem decimal_at (hbase : IsBase base) (field : List Ascii) (do_assign longflag : Bool)
    {seen : Bool} {width' o : ℕ}
    (hmark : hexMark string base width (s.at string i) =
      some (width', seen, s.at string (i + o))) :
    let l := string.drop (i + o)
    let used := o + (signOf width' l).length + (takenDigits base width' l).length
    let m : Made := ⟨base, field, do_assign, longflag, string.drop i,
      seen || decide (0 < (takenDigits base width' l).length),
      if do_assign then some (takenCell base width' longflag l) else none,
      (string.drop i).drop used⟩
    decimal string base field width do_assign longflag (s.at string i) =
      some (m.done_some, (s.record m).at string (i + used)) := by
  intro l used m
  have hzero : (0 : BitVec 32) = BitVec.ofNat 32 0 := rfl
  have hdigits := @digitLoop_at string base hbase width' 0 seen s
    (i + o + (signOf width' l).length)
  have hdrop : string.drop (i + o + (signOf width' l).length) = l.drop (signOf width' l).length := by
    rw [List.drop_drop]
  rw [hdrop] at hdigits
  have hpos : i + o + (signOf width' l).length + (takenDigits base width' l).length = i + used := by
    omega
  rw [decimal, hmark, Option.bind_eq_bind, Option.bind_some]
  dsimp only
  rw [signMark_at, Option.bind_eq_bind, Option.bind_some]
  dsimp only
  rw [hzero, hdigits, Option.bind_eq_bind, Option.bind_some]
  dsimp only
  have hdec : ∀ p : Prop, [Decidable p] → ∀ a b : BitVec 32,
      (if decide p = true then a else b) = if p then a else b := by
    intro p _ a b
    by_cases hp : p <;> simp [hp]
  have hrest : string.drop (i + o + (signOf width' l).length + (takenDigits base width' l).length) =
      (string.drop i).drop used := by
    rw [List.drop_drop, hpos]
  rw [takenDigits] at hrest
  rw [input_at, input_at, hdec, ← hpos, record_at, hrest]
  rfl

/-! ## The longest numeral within a width -/

theorem takeWhile_take (f : Ascii → Bool) (k : ℕ) (l : List Ascii) :
    (l.take k).takeWhile f = (l.takeWhile f).take k := by
  induction l generalizing k with
  | nil => simp
  | cons c l ih =>
    cases k with
    | zero => simp
    | succ k =>
      by_cases hc : f c = true
      · rw [List.take_succ_cons, List.takeWhile_cons_of_pos hc, List.takeWhile_cons_of_pos hc,
          List.take_succ_cons, ih]
      · rw [List.take_succ_cons, List.takeWhile_cons_of_neg hc, List.takeWhile_cons_of_neg hc,
          List.take_nil]

/-- A sign is found in what fits in the width. -/
theorem skipSign_take {k : ℕ} (hk : 0 < k) (l : List Ascii) :
    skipSign (l.take k) = ((skipSign l).1, (skipSign l).2.take (k - (skipSign l).1.length)) := by
  obtain ⟨k, rfl⟩ : ∃ i, k = i + 1 := ⟨k - 1, by omega⟩
  cases l with
  | nil => simp [skipSign]
  | cons c l =>
    rw [List.take_succ_cons, skipSign, skipSign]
    split_ifs
    · rfl
    · rfl

/-- The mark of hexadecimal with a digit behind it takes three characters at least. -/
theorem hexTail_take (k : ℕ) (l : List Ascii) :
    hexTail (l.take k) = if 3 ≤ k then (hexTail l).map (·.take (k - 2)) else none := by
  match k, l with
  | 0, l => rfl
  | 1, [] => rfl
  | 1, [c] => rfl
  | 1, c :: x :: l => rfl
  | 2, [] => rfl
  | 2, [c] => rfl
  | 2, c :: x :: l =>
    rw [if_neg (by decide)]
    exact if_neg fun h => by simpa using h.2.2
  | k + 3, [] => rfl
  | k + 3, [c] => rfl
  | k + 3, c :: x :: l =>
    rw [if_pos (by omega)]
    have htake : (c :: x :: l).take (k + 3) = c :: x :: l.take (k + 1) := rfl
    have hhead : (l.take (k + 1)).head? = l.head? := by
      cases l <;> rfl
    rw [htake, hexTail, hexTail, hhead]
    split_ifs
    · rfl
    · rfl

/-- Nothing comes before the sign. -/
theorem no_blanks {l : List Ascii} (hl : l.head?.any isspace = false) (k : ℕ) :
    (l.take k).takeWhile isspace = [] ∧ (l.take k).dropWhile isspace = l.take k := by
  have hnil : l.takeWhile isspace = [] := by
    cases l with
    | nil => rfl
    | cons c l => exact List.takeWhile_cons_of_neg (by simpa using hl)
  have htake : (l.take k).takeWhile isspace = [] := by
    rw [takeWhile_take, hnil, List.take_nil]
  refine ⟨htake, ?_⟩
  have hsplit := List.takeWhile_append_dropWhile (p := isspace) (l := l.take k)
  rwa [htake, List.nil_append] at hsplit

variable {l : List Ascii} {k : ℕ}

/-- The digits behind a sign, as many as fit. -/
def fitting (base k : ℕ) (l : List Ascii) : List Ascii :=
  (digits base (skipSign l).2).take (k - (skipSign l).1.length)

/-- The longest numeral has no mark where none fits. -/
theorem longest_plain (hbase : IsBase base) (hl : l.head?.any isspace = false)
    (hlead : base = 16 → hexTail ((skipSign l).2.take (k - (skipSign l).1.length)) = none) :
    (longest base (l.take k)).map Prod.fst =
      if fitting base k l = [] then none
      else some ⟨[], (skipSign l).1, [], fitting base k l, base⟩ := by
  by_cases hk : k = 0
  · subst hk
    have hnone : fitting base 0 l = [] := by
      rw [fitting, Nat.zero_sub, List.take_zero]
    have hempty : longest base [] = none := by
      rcases hbase with rfl | rfl | rfl <;> rfl
    rw [hnone, if_pos rfl, List.take_zero, hempty]
    rfl
  · obtain ⟨hspace, hskip⟩ := no_blanks hl k
    have hzero : base ≠ 0 := by rcases hbase with rfl | rfl | rfl <;> decide
    have hfound : findLead base ((skipSign l).2.take (k - (skipSign l).1.length)) =
        (base, [], (skipSign l).2.take (k - (skipSign l).1.length)) := by
      rw [Ansi.findLead_plain fun hb => hlead (hb.resolve_left hzero), if_neg hzero]
    have hdigits : ((skipSign l).2.take (k - (skipSign l).1.length)).takeWhile (isDigitOf base) =
        fitting base k l := takeWhile_take ..
    rw [longest, hspace, Ansi.skipSpace, hskip, skipSign_take (by omega)]
    dsimp only
    rw [hfound]
    dsimp only
    rw [hdigits]
    split_ifs
    · rfl
    · rfl

/-- The longest numeral has the mark where it fits with a digit behind it. -/
theorem longest_mark (hl : l.head?.any isspace = false) {r : List Ascii}
    (hr : hexTail (skipSign l).2 = some r) (hk : (skipSign l).1.length + 3 ≤ k) :
    (longest 16 (l.take k)).map Prod.fst = some ⟨[], (skipSign l).1, (skipSign l).2.take 2,
      (digits 16 r).take (k - (skipSign l).1.length - 2), 16⟩ := by
  obtain ⟨hspace, hskip⟩ := no_blanks hl k
  obtain ⟨lead, c, q, hm, rfl, hc, hp⟩ := Ansi.hexTail_some hr
  have hlead : (skipSign l).2.take 2 = lead := by
    rw [hp, List.take_left' hm.length]
  have htake : (skipSign l).2.take (k - (skipSign l).1.length) =
      lead ++ (c :: q).take (k - (skipSign l).1.length - 2) := by
    rw [hp, List.take_append, hm.length, List.take_of_length_le (by rw [hm.length]; omega)]
  obtain ⟨i, hi⟩ : ∃ i, k - (skipSign l).1.length - 2 = i + 1 :=
    ⟨k - (skipSign l).1.length - 3, by omega⟩
  have hfound : findLead 16 (lead ++ (c :: q).take (i + 1)) = (16, lead, (c :: q).take (i + 1)) :=
    Ansi.findLead_mark (Or.inr rfl) hm hc
  have hdigits : ((c :: q).take (i + 1)).takeWhile (isDigitOf 16) = (digits 16 (c :: q)).take (i + 1) :=
    takeWhile_take ..
  have hne : (digits 16 (c :: q)).take (i + 1) ≠ [] := by
    rw [digits, List.takeWhile_cons_of_pos hc, List.take_succ_cons]
    exact List.cons_ne_nil _ _
  rw [longest, hspace, Ansi.skipSpace, hskip, skipSign_take (by omega), hlead]
  dsimp only
  rw [htake, hi, hfound]
  dsimp only
  rw [hdigits, if_neg hne]
  rfl

/-! ## Right conversions -/

/-- The number that a numeral stands for. -/
def valueOf (n : Numeral) : ℤ :=
  if n.negative then -(numeral n.radix n.digits : ℤ) else numeral n.radix n.digits

/-- A number as it is stored. -/
def wordOf (longflag : Bool) (v : ℤ) : Cell :=
  if longflag then .ulong (BitVec.ofInt 32 v) else .uint (BitVec.ofInt 16 v)

/-- The width that the format says; without one, all of the input. -/
def Made.bound (m : Made) : ℕ := if m.field = [] then m.input.length else numeral 10 m.field

/-- The width that the code has. -/
def Made.limit (m : Made) : ℕ := if m.field = [] then UINT_MAX else widthOf m.field

/-- The longest numeral that the input begins with, within the width. -/
def Made.best (m : Made) : Option Numeral :=
  (longest m.base (m.input.take m.bound)).map Prod.fst

/-- A conversion that is all or nothing: the value of the longest numeral is stored and the input
goes on behind it, or there is none and nothing is stored. -/
def Made.Right (m : Made) : Prop :=
  match m.best with
  | some n => m.done_some = true ∧
      m.stored = (if m.do_assign then some (wordOf m.longflag (valueOf n)) else none) ∧
      m.rest = m.input.drop n.text.length
  | none => m.done_some = false ∧ m.stored = none

/-- How many digits of a base there are. -/
def run (base : ℕ) (l : List Ascii) : ℕ := (digits base l).length

/-- The input that a conversion is right on. Behind a mark that is taken there is a digit, within
the width. Elsewhere there is no sign in front of a mark that fits; as many digits are within the
width as are within it together with the sign; and there is one, or nothing is to be stored. -/
def Made.Meets (m : Made) : Prop :=
  if m.base = 16 ∧ 2 ≤ m.limit ∧ IsHexMark (m.input.take 2) then
    0 < min (run 16 (m.input.drop 2)) (m.limit - 2) ∧
      min (run 16 (m.input.drop 2)) (m.limit - 2) = min (run 16 (m.input.drop 2)) (m.bound - 2)
  else
    let p := skipSign m.input
    ¬(m.base = 16 ∧ (hexTail p.2).isSome ∧ p.1.length + 3 ≤ m.bound) ∧
      min (run m.base p.2) m.limit = min (run m.base p.2) (m.bound - p.1.length) ∧
      (0 < min (run m.base p.2) m.limit ∨ m.do_assign = false)

/-- The word of the number that has been computed. -/
theorem cellOf_eq (longflag : Bool) (neg : Prop) [Decidable neg] (n : ℕ) :
    cellOf longflag (if neg then -BitVec.ofNat 32 n else BitVec.ofNat 32 n) =
      wordOf longflag (if neg then -(n : ℤ) else n) := by
  rw [cellOf, wordOf]
  by_cases hneg : neg
  · rw [if_pos hneg, if_pos hneg, BitVec.ofInt_neg, BitVec.ofInt_neg, BitVec.ofInt_natCast,
      BitVec.ofInt_natCast, BitVec.setWidth_neg_of_le (by decide),
      BitVec.setWidth_ofNat_of_le (by decide)]
  · rw [if_neg hneg, if_neg hneg, BitVec.ofInt_natCast, BitVec.ofInt_natCast,
      BitVec.setWidth_ofNat_of_le (by decide)]

theorem valueOf_eq (n : Numeral) : valueOf n =
    if n.sign = [MINUS] then -(numeral n.radix n.digits : ℤ) else numeral n.radix n.digits := by
  rw [valueOf, Numeral.negative]
  by_cases h : n.sign = [MINUS] <;> simp [h]

/-- What is left determines how much was taken. -/
theorem drop_inj {a b : ℕ} (ha : a ≤ l.length) (hb : b ≤ l.length) (h : l.drop a = l.drop b) :
    a = b := by
  have hlen := congrArg List.length h
  rw [List.length_drop, List.length_drop] at hlen
  omega

/-- As many of the same digits are the same digits. -/
theorem take_eq_of_length {ds : List Ascii} {a b : ℕ} (h : (ds.take a).length = (ds.take b).length) :
    ds.take a = ds.take b := by
  rw [List.length_take, List.length_take] at h
  rcases le_total ds.length a with ha | ha
  · rw [List.take_of_length_le ha, List.take_of_length_le (by omega)]
  · rcases le_total ds.length b with hb | hb
    · rw [List.take_of_length_le hb, List.take_of_length_le (by omega)]
    · rw [show a = b by omega]

theorem run_le (base : ℕ) (l : List Ascii) : run base l ≤ l.length :=
  (List.takeWhile_prefix _).length_le

theorem skipSign_length (l : List Ascii) :
    (skipSign l).1.length + (skipSign l).2.length = l.length := by
  conv_rhs => rw [(Ansi.skipSign_spec l).1]
  rw [List.length_append]

/-- Behind the sign are the digits that are taken. -/
theorem takenDigits_eq (base width : ℕ) (l : List Ascii) :
    takenDigits base width l = (digits base (skipSign l).2).take width := by
  rw [takenDigits, signOf]
  by_cases hw : width = 0
  · rw [hw, List.take_zero, List.take_zero]
  · have hdrop : l.drop (skipSign l).1.length = (skipSign l).2 := by
      have hsplit := (Ansi.skipSign_spec l).1
      generalize skipSign l = p at hsplit ⊢
      rw [hsplit, List.drop_left]
    rw [if_neg hw, hdrop]

/-- The digits before a mark of hexadecimal are one at most. -/
theorem run_mark_le {lead r : List Ascii} (hm : IsHexMark lead) : run 16 (lead ++ r) ≤ 1 := by
  have hsplit := List.takeWhile_append_dropWhile (p := isDigitOf 16) (l := lead ++ r)
  exact Ansi.digits_before_mark hm (by decide) (fun c hc => List.mem_takeWhile_imp hc) hsplit

/-- Without a mark that is taken, the conversion is right exactly where it is meant to be. -/
theorem exact_plain (hbase : IsBase base) (do_assign longflag : Bool) {field : List Ascii}
    (hl : l.head?.any isspace = false) {w : ℕ} (hw : w = if field = [] then UINT_MAX else widthOf field)
    (hplain : ¬(base = 16 ∧ 2 ≤ w ∧ IsHexMark (l.take 2))) {m : Made}
    (hm : m = ⟨base, field, do_assign, longflag, l, decide (0 < (takenDigits base w l).length),
      if do_assign then some (takenCell base w longflag l) else none,
      l.drop ((signOf w l).length + (takenDigits base w l).length)⟩) :
    m.Right ↔ m.Meets := by
  have hlimit : m.limit = w := by rw [Made.limit, hm, hw]
  have htaken := takenDigits_eq base w l
  have hcount : (takenDigits base w l).length = min (run base (skipSign l).2) w := by
    rw [htaken, List.length_take, min_comm]
    rfl
  have hrun := run_le base (skipSign l).2
  have hsum := skipSign_length l
  have hsign : (signOf w l).length ≤ (skipSign l).1.length := by
    rw [signOf]
    split_ifs
    · exact Nat.zero_le _
    · exact le_rfl
  generalize hk : m.bound = k
  have hbest : m.best = (longest base (l.take k)).map Prod.fst := by
    rw [Made.best, hk, hm]
  rw [Made.Meets, hlimit, hk, Made.Right, hbest]
  simp only [hm, if_neg hplain]
  by_cases hmark : base = 16 ∧ (hexTail (skipSign l).2).isSome ∧ (skipSign l).1.length + 3 ≤ k
  · -- The numeral has a mark behind a sign, of which the code takes the zero.
    refine iff_of_false (fun h => ?_) fun h => h.1 hmark
    obtain ⟨rfl, hsome, hfits⟩ := hmark
    obtain ⟨r, hr⟩ := Option.isSome_iff_exists.mp hsome
    obtain ⟨lead, c, q, hlead, rfl, hc, hp⟩ := Ansi.hexTail_some hr
    rw [longest_mark hl hr hfits] at h
    have hone : run 16 (skipSign l).2 ≤ 1 := by
      rw [hp]
      exact run_mark_le hlead
    have hpos : 0 < (digits 16 (c :: q)).length := by
      rw [digits, List.takeWhile_cons_of_pos hc]
      exact Nat.succ_pos _
    have htwo : ((skipSign l).2.take 2).length = 2 := by
      rw [hp, List.take_left' hlead.length, hlead.length]
    have hbehind : 3 ≤ (skipSign l).2.length := by
      rw [hp, List.length_append, hlead.length, List.length_cons]
      omega
    have hrest := congrArg List.length h.2.2
    simp only [Numeral.text, List.length_drop, List.length_append, List.length_nil, htwo,
      List.length_take] at hrest
    omega
  have hlead : base = 16 → hexTail ((skipSign l).2.take (k - (skipSign l).1.length)) = none := by
    intro h16
    rw [hexTail_take]
    split_ifs with h3
    · cases hr : hexTail (skipSign l).2 with
      | none => rfl
      | some r => exact absurd ⟨h16, by rw [hr]; rfl, by omega⟩ hmark
    · rfl
  have hfit : (fitting base k l).length = min (run base (skipSign l).2) (k - (skipSign l).1.length) := by
    rw [fitting, List.length_take, min_comm]
    rfl
  rw [longest_plain hbase hl hlead]
  by_cases hnil : fitting base k l = []
  · -- There is no numeral within the width.
    have hzero : (fitting base k l).length = 0 := by rw [hnil]; rfl
    rw [if_pos hnil]
    dsimp only
    constructor
    · rintro ⟨hnone, hstored⟩
      have hassign : do_assign = false := by
        cases do_assign with
        | true => cases hstored
        | false => rfl
      have hless := of_decide_eq_false hnone
      exact ⟨hmark, by omega, Or.inr hassign⟩
    · rintro ⟨-, hsame, hsome⟩
      have hassign : do_assign = false := hsome.resolve_left (by omega)
      refine ⟨decide_eq_false (by omega), ?_⟩
      rw [hassign]
      rfl
  · -- There is one: it is taken where as many digits are.
    have hpos := List.length_pos_of_ne_nil hnil
    rw [if_neg hnil]
    have hlen : (Numeral.text ⟨[], (skipSign l).1, [], fitting base k l, base⟩).length =
        (skipSign l).1.length + (fitting base k l).length := by
      simp only [Numeral.text, List.length_append, List.length_nil, Nat.zero_add]
    dsimp only
    rw [hlen]
    constructor
    · rintro ⟨hsome, -, hrest⟩
      have hmore := of_decide_eq_true hsome
      have hwpos : w ≠ 0 := by omega
      have hwhole : signOf w l = (skipSign l).1 := if_neg hwpos
      rw [hwhole] at hrest
      have hsame := drop_inj (by omega) (by omega) hrest
      exact ⟨hmark, by omega, Or.inl (by omega)⟩
    · rintro ⟨-, hsame, -⟩
      have hwpos : w ≠ 0 := by omega
      have hwhole : signOf w l = (skipSign l).1 := if_neg hwpos
      have hdigits : takenDigits base w l = fitting base k l := by
        rw [htaken]
        refine take_eq_of_length ?_
        rw [← htaken, hcount, hsame, ← hfit]
        rfl
      refine ⟨decide_eq_true (by omega), ?_, ?_⟩
      · rw [takenCell, cellOf_eq, hwhole, hdigits, valueOf_eq]
        rfl
      · rw [hwhole, hdigits]

/-- A digit is no sign. -/
theorem signOf_digit {c : Ascii} (hc : isDigitOf base c) (width : ℕ) (l : List Ascii) :
    signOf width (c :: l) = [] := by
  obtain ⟨-, hplus, hminus⟩ := Ansi.digit_apart c (Ansi.isDigitOf_isSome hc)
  rw [signOf, skipSign, if_neg (not_or.mpr ⟨hplus, hminus⟩)]
  split_ifs
  · rfl
  · rfl

/-- With a mark that is taken, the conversion is right exactly where there is a digit behind it, as
many of them within the width as are taken. -/
theorem exact_mark (do_assign longflag : Bool) {field : List Ascii} {w : ℕ}
    (hw : w = if field = [] then UINT_MAX else widthOf field) (hw2 : 2 ≤ w)
    (hmark : IsHexMark (l.take 2)) {m : Made}
    (hm : m = ⟨16, field, do_assign, longflag, l, true,
      if do_assign then some (takenCell 16 (w - 2) longflag (l.drop 2)) else none,
      l.drop (2 + (signOf (w - 2) (l.drop 2)).length +
        (takenDigits 16 (w - 2) (l.drop 2)).length)⟩) :
    m.Right ↔ m.Meets := by
  have hlimit : m.limit = w := by rw [Made.limit, hm, hw]
  generalize hk : m.bound = k
  have hbest : m.best = (longest 16 (l.take k)).map Prod.fst := by
    rw [Made.best, hk, hm]
  have hcond : m.base = 16 ∧ 2 ≤ w ∧ IsHexMark (m.input.take 2) := by
    rw [hm]
    exact ⟨rfl, hw2, hmark⟩
  rw [Made.Meets, hlimit, hk, Made.Right, hbest, if_pos hcond]
  obtain ⟨lead, t, hlt, hlead⟩ : ∃ lead t, l = lead ++ t ∧ IsHexMark lead :=
    ⟨l.take 2, l.drop 2, (List.take_append_drop 2 l).symm, hmark⟩
  have hdrop : l.drop 2 = t := by rw [hlt, List.drop_left' hlead.length]
  have hlen : l.length = 2 + t.length := by rw [hlt, List.length_append, hlead.length]
  have hhead : l.head?.any isspace = false := by
    rw [hlt]
    rcases hlead with rfl | rfl
    · rfl
    · rfl
  have hsign : skipSign l = ([], l) := by
    have hzero : ¬(ZERO = PLUS ∨ ZERO = MINUS) := by decide
    rw [hlt]
    rcases hlead with rfl | rfl
    · rw [List.cons_append, skipSign, if_neg hzero]
    · rw [List.cons_append, skipSign, if_neg hzero]
  rw [hdrop] at hm
  simp only [hm, hdrop]
  by_cases hgood : 0 < run 16 t ∧ 3 ≤ k
  · obtain ⟨hdigit, h3⟩ := hgood
    obtain ⟨c, q, rfl, hc⟩ : ∃ c q, t = c :: q ∧ isDigitOf 16 c = true := by
      cases t with
      | nil => exact absurd hdigit (by decide)
      | cons c q =>
        refine ⟨c, q, rfl, ?_⟩
        by_contra hc
        rw [run, digits, List.takeWhile_cons_of_neg hc] at hdigit
        exact absurd hdigit (by decide)
    have hr : hexTail (skipSign l).2 = some (c :: q) := by
      rw [hsign, hlt]
      exact Ansi.hexTail_mark hlead hc
    have htwo : l.take 2 = lead := by rw [hlt, List.take_left' hlead.length]
    have hfits : (skipSign l).1.length + 3 ≤ k := by
      rw [hsign]
      simpa using h3
    have hnosign : signOf (w - 2) (c :: q) = [] := signOf_digit hc _ _
    have htaken : takenDigits 16 (w - 2) (c :: q) = (digits 16 (c :: q)).take (w - 2) := by
      rw [takenDigits, hnosign]
      rfl
    have hcount : ((digits 16 (c :: q)).take (w - 2)).length = min (run 16 (c :: q)) (w - 2) := by
      rw [List.length_take, min_comm]
      rfl
    have hfit : ((digits 16 (c :: q)).take (k - 2)).length = min (run 16 (c :: q)) (k - 2) := by
      rw [List.length_take, min_comm]
      rfl
    have hrun := run_le 16 (c :: q)
    rw [longest_mark hhead hr hfits, hsign, hnosign, htaken, List.length_nil, Nat.sub_zero, htwo]
    have htext : (Numeral.text ⟨[], [], lead, (digits 16 (c :: q)).take (k - 2), 16⟩).length =
        2 + ((digits 16 (c :: q)).take (k - 2)).length := by
      simp only [Numeral.text, List.length_append, List.length_nil, Nat.zero_add, hlead.length]
    dsimp only
    rw [htext, Nat.add_zero]
    constructor
    · rintro ⟨-, -, hrest⟩
      have hsame := drop_inj (by omega) (by omega) hrest
      exact ⟨by omega, by omega⟩
    · rintro ⟨-, hsame⟩
      have hdigits : (digits 16 (c :: q)).take (w - 2) = (digits 16 (c :: q)).take (k - 2) :=
        take_eq_of_length (by omega)
      refine ⟨trivial, ?_, by rw [hdigits]⟩
      rw [takenCell, cellOf_eq, hnosign, htaken, hdigits, valueOf_eq]
      rfl
  · -- No digit is behind the mark, or none fits: the numeral is the zero.
    have hnone : hexTail ((skipSign l).2.take (k - (skipSign l).1.length)) = none := by
      rw [hsign, hexTail_take]
      split_ifs with h3
      · cases hr : hexTail l with
        | none => rfl
        | some r =>
          obtain ⟨lead', c, q, hlead', rfl, hc, hp⟩ := Ansi.hexTail_some hr
          have hbehind : l.drop 2 = c :: q := by rw [hp, List.drop_left' hlead'.length]
          have hdigit : 0 < run 16 t := by
            rw [← hdrop, hbehind, run, digits, List.takeWhile_cons_of_pos hc]
            exact Nat.succ_pos _
          exact absurd ⟨hdigit, h3⟩ hgood
      · rfl
    have hone : (fitting 16 k l).length ≤ 1 := by
      have hrun : run 16 l ≤ 1 := by
        rw [hlt]
        exact run_mark_le hlead
      rw [fitting, hsign, List.length_take]
      exact le_trans (min_le_right _ _) hrun
    refine iff_of_false (fun h => ?_) fun h => ?_
    · rw [longest_plain (Or.inr (Or.inr rfl)) hhead fun _ => hnone] at h
      by_cases hnil : fitting 16 k l = []
      · rw [if_pos hnil] at h
        exact absurd h.1 (by decide)
      · rw [if_neg hnil, hsign] at h
        have hrest := congrArg List.length h.2.2
        simp only [Numeral.text, List.length_drop, List.length_append, List.length_nil] at hrest
        omega
    · exact hgood ⟨by omega, by omega⟩

/-! ## Formats of integers -/

/-- The conversions of integers. -/
inductive Conv
  | d
  | u
  | o
  | x

def Conv.char : Conv → Ascii
  | .d => 100
  | .u => 117
  | .o => 111
  | .x => 120

def Conv.radix : Conv → ℕ
  | .d => 10
  | .u => 10
  | .o => 8
  | .x => 16

/-- The parts of a format: white space, other characters, and conversions. -/
inductive Directive
  | white (c : Ascii)
  | plain (c : Ascii)
  | conv (star : Bool) (field : List Ascii) (longflag : Bool) (c : Conv)

def Directive.text : Directive → List Ascii
  | .white c => [c]
  | .plain c => [c]
  | .conv star field longflag c => PERCENT :: ((if star then [STAR] else []) ++
      (field ++ ((if longflag then [LOWER_L] else []) ++ [c.char])))

def Directive.Fits : Directive → Prop
  | .white c => isspace c = true
  | .plain c => isspace c = false ∧ c ≠ PERCENT
  | .conv _ field _ _ => ∀ c ∈ field, isdigit c = true

theorem Conv.radix_isBase (c : Conv) : IsBase c.radix := by
  cases c
  · exact Or.inr (Or.inl rfl)
  · exact Or.inr (Or.inl rfl)
  · exact Or.inl rfl
  · exact Or.inr (Or.inr rfl)

/-- The width that the code makes of its digits. -/
def widthFor (field : List Ascii) : ℕ := if field = [] then UINT_MAX else widthOf field

/-- The character of a conversion is reached. -/
theorem switch_eq (c : Conv) (field : List Ascii) (width : ℕ) (do_assign longflag : Bool)
    (format : List Ascii) (s : Scan) :
    switch string c.char field width do_assign longflag format s =
      orDone format (decimal string c.radix field width do_assign longflag s) := by
  cases c with
  | d => rw [switch, if_neg (by decide), if_pos (by decide)]; rfl
  | u => rw [switch, if_neg (by decide), if_pos (by decide)]; rfl
  | o => rw [switch, if_pos (by decide)]; rfl
  | x => rw [switch, if_neg (by decide), if_neg (by decide), if_pos (by decide)]; rfl

/-- A conversion is read, and then made. -/
theorem conversion_eq {star longflag : Bool} {field : List Ascii} (c : Conv)
    (hfield : ∀ d ∈ field, isdigit d = true) (format : List Ascii) (s : Scan) :
    conversion string ((if star then [STAR] else []) ++
      (field ++ ((if longflag then [LOWER_L] else []) ++ c.char :: format))) s =
      (skipBlanks string (string.length + 1) s).bind fun t =>
        orDone format (decimal string c.radix field (widthFor field) (!star) longflag t) := by
  have hchar : isdigit c.char = false ∧ c.char ≠ STAR ∧ tolower c.char ≠ LOWER_L ∧ c.char ≠ 99 := by
    cases c <;> decide
  -- what comes behind the width
  obtain ⟨e, rest, he, hdigit, hstar⟩ : ∃ e rest,
      (if longflag then [LOWER_L] else []) ++ c.char :: format = e :: rest ∧ isdigit e = false ∧
        e ≠ STAR := by
    cases longflag with
    | true => exact ⟨LOWER_L, c.char :: format, rfl, by decide, by decide⟩
    | false => exact ⟨c.char, format, rfl, hchar.1, hchar.2.1⟩
  have hlong : ((e :: rest).head?.map tolower = some LOWER_L) = (longflag = true) := by
    rw [← he]
    cases longflag with
    | true => exact propext (iff_of_true rfl rfl)
    | false => exact propext (iff_of_false (fun h => hchar.2.2.1 (Option.some.inj h)) Bool.false_ne_true)
  have hrest : (if longflag = true then (e :: rest).tail else e :: rest) = c.char :: format := by
    rw [← he]
    cases longflag <;> rfl
  have htake : (field ++ e :: rest).takeWhile isdigit = field := by
    rw [List.takeWhile_append_of_pos hfield, List.takeWhile_cons_of_neg (by rw [hdigit]; decide),
      List.append_nil]
  have hdrop : (field ++ e :: rest).dropWhile isdigit = e :: rest := by
    rw [List.dropWhile_append_of_pos hfield, List.dropWhile_cons_of_neg (by rw [hdigit]; decide)]
  have hhead : (field ++ e :: rest).head? ≠ some STAR := by
    cases field with
    | nil => exact fun h => hstar (Option.some.inj h)
    | cons d field =>
      intro h
      have hd := hfield d List.mem_cons_self
      rw [Option.some.inj h] at hd
      exact absurd hd (by decide)
  have hassign : (((if star then [STAR] else []) ++ (field ++ e :: rest)).head? ≠ some STAR) =
      (star = false) := by
    cases star with
    | true => exact propext (iff_of_false (fun h => h rfl) Bool.noConfusion)
    | false => exact propext (iff_of_true hhead rfl)
  have htail : (if star = false then (if star then [STAR] else []) ++ (field ++ e :: rest)
      else ((if star then [STAR] else []) ++ (field ++ e :: rest)).tail) = field ++ e :: rest := by
    cases star <;> rfl
  have hskip : ∀ t, skipFor string c.char t = skipBlanks string (string.length + 1) t := fun t =>
    if_pos hchar.2.2.2
  rw [he]
  simp only [conversion, hassign, htail, htake, hdrop, hlong, hrest, hskip, switch_eq,
    Bool.decide_eq_false, Bool.decide_eq_true]
  rfl

/-- What is taken is there. -/
theorem taken_le (base width : ℕ) (l : List Ascii) :
    (signOf width l).length + (takenDigits base width l).length ≤ l.length := by
  have hsum := skipSign_length l
  have hrun := run_le base (skipSign l).2
  have hsign : (signOf width l).length ≤ (skipSign l).1.length := by
    rw [signOf]
    split_ifs
    · exact Nat.zero_le _
    · exact le_rfl
  have htaken : (takenDigits base width l).length ≤ run base (skipSign l).2 := by
    rw [takenDigits_eq, List.length_take]
    exact min_le_right _ _
  omega

/-- What is said of a conversion that has been made. -/
structure Made.Exact (m : Made) : Prop where
  right : m.Right ↔ m.Meets
  stores : m.stored.isSome = m.do_assign

/-- A conversion of an integer where there is no white space. -/
theorem decimal_exact (hbase : IsBase base) (field : List Ascii) (do_assign longflag : Bool) (s : Scan)
    (hhead : (string.drop i).head?.any isspace = false) (hi : i ≤ string.length) :
    ∃ m j, decimal string base field (widthFor field) do_assign longflag (s.at string i) =
        some (m.done_some, (s.record m).at string j) ∧ m.Exact ∧ m.do_assign = do_assign ∧
      j ≤ string.length := by
  have hstores : ∀ cell : Cell, (if do_assign then some cell else none).isSome = do_assign := by
    intro cell
    cases do_assign <;> rfl
  by_cases hmark : base = 16 ∧ 2 ≤ widthFor field ∧ IsHexMark ((string.drop i).take 2)
  · obtain ⟨rfl, hw2, hm⟩ := hmark
    have hdecimal := @decimal_at string s i 16 (widthFor field) (Or.inr (Or.inr rfl)) field do_assign
      longflag true (widthFor field - 2) 2 (hexMark_mark hw2 hm)
    have hle := taken_le 16 (widthFor field - 2) (string.drop (i + 2))
    have htwo : ((string.drop i).take 2).length = 2 := hm.length
    rw [List.length_take, List.length_drop] at htwo
    rw [List.length_drop] at hle
    refine ⟨_, _, hdecimal, ⟨?_, hstores _⟩, rfl, by omega⟩
    refine exact_mark do_assign longflag (w := widthFor field) rfl hw2 hm ?_
    have hdrop : string.drop (i + 2) = (string.drop i).drop 2 := by rw [List.drop_drop]
    rw [hdrop]
    rfl
  · have hdecimal := @decimal_at string s i base (widthFor field) hbase field do_assign
      longflag false (widthFor field) 0 (hexMark_plain hmark)
    have hle := taken_le base (widthFor field) (string.drop (i + 0))
    rw [List.length_drop] at hle
    refine ⟨_, _, hdecimal, ⟨?_, hstores _⟩, rfl, by omega⟩
    refine exact_plain hbase do_assign longflag hhead (w := widthFor field) rfl hmark ?_
    rw [Nat.zero_add]
    rfl

/-! ## The loop over the format -/

/-- The conversions of a run: what they store is what has been stored, and those are counted that
have seen data and store. -/
structure Grown (s r : Scan) (ms : List Made) : Prop where
  made : r.made = s.made ++ ms
  stored : r.stored = s.stored ++ ms.filterMap Made.stored
  done : r.done = s.done + (ms.filter fun m => m.done_some && m.do_assign).length
  exact_all : ∀ m ∈ ms, m.Exact

theorem Grown.start (hmade : t.made = s.made) (hstored : t.stored = s.stored)
    (hdone : t.done = s.done) : Grown s t [] where
  made := by rw [hmade, List.append_nil]
  stored := by rw [hstored, List.filterMap_nil, List.append_nil]
  done := by rw [hdone, List.filter_nil, List.length_nil, Int.natCast_zero, Int.add_zero]
  exact_all _ h := absurd h List.not_mem_nil

/-- A conversion, and then others. -/
theorem Grown.cons {m : Made} {r : Scan} {ms : List Made} (hm : m.Exact)
    (h : Grown (s.record m) r ms) : Grown s r (m :: ms) where
  made := by
    rw [h.made, Scan.record, List.append_assoc]
    rfl
  stored := by
    rw [h.stored, Scan.record, List.append_assoc, List.filterMap_cons]
    cases m.stored <;> rfl
  done := by
    rw [h.done, Scan.record, List.filter_cons]
    dsimp only
    split_ifs
    · rw [List.length_cons]
      push_cast
      omega
    · rfl
  exact_all x hx := by
    rcases List.mem_cons.mp hx with rfl | hx
    · exact hm
    · exact h.exact_all x hx

/-- White space in the format is skipped. -/
theorem turn_white {c : Ascii} (hc : isspace c = true) :
    turn string (c :: format) s = turn string format s := by
  rw [turn, turn, List.dropWhile_cons_of_pos hc]

/-- A character of the format that is no conversion. -/
theorem turn_plain {c : Ascii} (hc : isspace c = false) (hne : c ≠ PERCENT) (hi : i ≤ string.length) :
    ∃ j, j ≤ string.length ∧ (turn string (c :: format) (s.at string i) = some (.quit (s.at string j)) ∨
      turn string (c :: format) (s.at string i) = some (.allDone (s.at string j)) ∨
      turn string (c :: format) (s.at string i) = some (.go format (s.at string j))) := by
  have hhead : (c :: format).dropWhile isspace = c :: format :=
    List.dropWhile_cons_of_neg (by rw [hc]; decide)
  rw [turn, hhead]
  dsimp only
  by_cases hend : (s.at string i).ic = none
  · exact ⟨i, hi, Or.inl (if_pos hend)⟩
  obtain ⟨j, -, hj, hskip, -⟩ := @skipBlanks_at string s i (string.length + 1) (by omega) hi
  rw [if_neg hend, if_pos hne, literal, hskip, Option.bind_eq_bind, Option.bind_some]
  by_cases hsame : (s.at string j).ic = some c
  · have hlt : j < string.length := by
      by_contra hge
      rw [ic_at, List.drop_eq_nil_of_le (by omega)] at hsame
      cases hsame
    refine ⟨j + 1, hlt, Or.inr (Or.inr ?_)⟩
    rw [if_neg (not_not.mpr hsame), rnc_at hlt, Option.bind_some]
  · exact ⟨j, hj, Or.inr (Or.inl (if_pos hsame))⟩

/-- A conversion of the format is made once, where the input has not ended. -/
theorem turn_conv {star longflag : Bool} {field : List Ascii} {c : Conv}
    (hfits : (Directive.conv star field longflag c).Fits) (hi : i ≤ string.length) :
    turn string ((Directive.conv star field longflag c).text ++ format) (s.at string i) =
        some (.quit (s.at string i)) ∨
      ∃ m j, m.Exact ∧ j ≤ string.length ∧
        turn string ((Directive.conv star field longflag c).text ++ format) (s.at string i) =
          some (if m.done_some then .go format ((s.record m).at string j)
            else .allDone ((s.record m).at string j)) := by
  have htext : (Directive.conv star field longflag c).text ++ format = PERCENT ::
      ((if star then [STAR] else []) ++
        (field ++ ((if longflag then [LOWER_L] else []) ++ c.char :: format))) := by
    simp only [Directive.text, List.cons_append, List.append_assoc, List.nil_append]
  have hhead : ∀ rest, (PERCENT :: rest).dropWhile isspace = PERCENT :: rest := fun rest =>
    List.dropWhile_cons_of_neg (by decide)
  rw [htext, turn, hhead]
  dsimp only
  by_cases hend : (s.at string i).ic = none
  · exact Or.inl (if_pos hend)
  obtain ⟨k, -, hk, hskip, hblank⟩ := @skipBlanks_at string s i (string.length + 1) (by omega) hi
  obtain ⟨m, j, hdecimal, hexact, -, hj⟩ :=
    decimal_exact c.radix_isBase field (!star) longflag s hblank hk
  refine Or.inr ⟨m, j, hexact, hj, ?_⟩
  rw [if_neg hend, if_neg (not_not.mpr rfl), conversion_eq c hfits, hskip, Option.bind_some, hdecimal]
  rfl

/-- The loop ends, and all conversions that have been made are as they are said to be. -/
theorem loop_spec (ds : List Directive) (hds : ∀ d ∈ ds, d.Fits)
    (hn : (ds.flatMap Directive.text).length < n) (hi : i ≤ string.length) :
    ∃ r ms, scanLoop string n (ds.flatMap Directive.text) (s.at string i) = some r ∧ Grown s r ms := by
  have hdone : ∀ (t : Scan) (j : ℕ),
      Grown t (if (t.at string j).ic.isSome then ugc (t.at string j) else t.at string j) [] := by
    intro t j
    split_ifs <;> exact Grown.start rfl rfl rfl
  induction ds generalizing n s i with
  | nil =>
    obtain ⟨n, rfl⟩ : ∃ k, n = k + 1 := ⟨n - 1, by omega⟩
    exact ⟨_, [], rfl, hdone s i⟩
  | cons d ds ih =>
    obtain ⟨n, rfl⟩ : ∃ k, n = k + 1 := ⟨n - 1, by omega⟩
    have hfits := hds d List.mem_cons_self
    have hrest := fun e he => hds e (List.mem_cons_of_mem d he)
    rw [List.flatMap_cons] at hn ⊢
    rw [List.length_append] at hn
    cases d with
    | white c =>
      have hlen : (Directive.white c).text.length = 1 := rfl
      obtain ⟨r, ms, hrun, hgrown⟩ := @ih s i (n + 1) hrest (by omega) hi
      refine ⟨r, ms, ?_, hgrown⟩
      rw [← hrun, scanLoop, scanLoop]
      exact congrArg (Option.bind · _) (turn_white hfits)
    | plain c =>
      have hlen : (Directive.plain c).text.length = 1 := rfl
      obtain ⟨j, hj, hturn⟩ := @turn_plain string (ds.flatMap Directive.text) s i c hfits.1 hfits.2 hi
      have hcons : (Directive.plain c).text ++ ds.flatMap Directive.text =
          c :: ds.flatMap Directive.text := rfl
      rw [hcons, scanLoop]
      rcases hturn with hturn | hturn | hturn
      · exact ⟨s.at string j, [], by rw [hturn]; rfl, Grown.start rfl rfl rfl⟩
      · exact ⟨_, [], by rw [hturn]; rfl, hdone s j⟩
      · obtain ⟨r, ms, hrun, hgrown⟩ := @ih s j n hrest (by omega) hj
        exact ⟨r, ms, by rw [hturn]; exact hrun, hgrown⟩
    | conv star field longflag c =>
      have hlen : 1 ≤ (Directive.conv star field longflag c).text.length := Nat.succ_pos _
      rw [scanLoop]
      rcases @turn_conv string (ds.flatMap Directive.text) s i star longflag field c hfits hi with
        hturn | ⟨m, j, hm, hj, hturn⟩
      · exact ⟨s.at string i, [], by rw [hturn]; rfl, Grown.start rfl rfl rfl⟩
      · rw [hturn, Option.bind_some]
        by_cases hsome : m.done_some = true
        · rw [if_pos hsome]
          obtain ⟨r, ms, hrun, hgrown⟩ := @ih (s.record m) j n hrest (by omega) hj
          exact ⟨r, m :: ms, hrun, Grown.cons hm hgrown⟩
        · rw [if_neg hsome]
          exact ⟨_, [m], rfl, Grown.cons hm (hdone (s.record m) j)⟩

/-- As many arguments are stored into as conversions are to store. -/
theorem stored_length {ms : List Made} (h : ∀ m ∈ ms, m.Exact) :
    (ms.filterMap Made.stored).length = (ms.filter Made.do_assign).length := by
  induction ms with
  | nil => rfl
  | cons m ms ih =>
    have hm := (h m List.mem_cons_self).stores
    have hrest := ih fun x hx => h x (List.mem_cons_of_mem m hx)
    rw [List.filterMap_cons, List.filter_cons, ← hm]
    cases m.stored with
    | none => exact hrest
    | some cell =>
      rw [Option.isSome_some, if_pos rfl, List.length_cons, List.length_cons, hrest]

/-- A right conversion that is to store has seen data. -/
theorem Made.Right.counted {m : Made} (hm : m.Exact) (h : m.Right) (ha : m.do_assign = true) :
    m.done_some = true := by
  have hsome := hm.stores
  rw [ha] at hsome
  rw [Made.Right] at h
  cases hbest : m.best with
  | none =>
    rw [hbest] at h
    rw [h.2] at hsome
    cases hsome
  | some n =>
    rw [hbest] at h
    exact h.1

/-- The format `%3x %*ld`. -/
def hexThenLong : List Directive :=
  [.conv false [51] false .x, .white 32, .conv true [] true .d]

end Minix.Scanf
