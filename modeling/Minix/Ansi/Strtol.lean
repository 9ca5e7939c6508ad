import Minix.Ansi.Numerals

/-!
# `strtol` and `strtoul`

`lib/ansi/strtol.c` and `lib/ansi/strtoul.c`, which differ in the range of the result. Both skip a
leading zero in base 0 or 16 as if it was a mark, and take what is not a digit for a lower-case
letter, so that some punctuation has the value of a digit. `Regular` says that a string meets
neither, and `strtol_grammar` that exactly then the two functions find the longest numeral and what
it stands for.
-/

namespace Minix.Ansi

def LONG_MAX : ℤ := 2147483647
def LONG_MIN : ℤ := -2147483648
def ULONG_MAX : ℤ := 4294967295

/-- `*nptr`: behind a string there is a null character. -/
def deref (nptr : List Ascii) : Ascii := nptr.headD 0

/-- The base is determined if it is unknown, and `0x` or `0X` is discarded if it is 16. -/
def stripBase (base : ℕ) (nptr : List Ascii) : ℕ × List Ascii :=
  if base = 0 then
    if deref nptr = ZERO then
      let nptr := nptr.tail
      if deref nptr = LOWER_X ∨ deref nptr = UPPER_X then (16, nptr.tail) else (8, nptr)
    else (10, nptr)
  else if base = 16 ∧ deref nptr = ZERO then
    let nptr := nptr.tail
    -- `c` is what the comparison with `x` says, and is then compared with `X`.
    let c : Ascii := if deref nptr = LOWER_X then 1 else 0
    if c ≠ 0 ∨ c = UPPER_X then (base, nptr.tail) else (base, nptr)
  else (base, nptr)

/-- What is subtracted from the character of a digit. -/
def digitInt (c : Ascii) : ℤ :=
  if isdigit c then c.val - 48 else c.val - if isupper c then 65 - 10 else 97 - 10

/-- The variables of the conversion. -/
structure Scan where
  result : ℤ
  overflow : Bool
  saw_a_digit : Bool
  nptr : List Ascii

/-- The conversion of digits. -/
def scanDigits (max : ℤ) (base : ℕ) : List Ascii → ℤ → Bool → Bool → Scan
  | [], result, overflow, saw_a_digit => ⟨result, overflow, saw_a_digit, []⟩
  | ch :: nptr, result, overflow, saw_a_digit =>
    let c := digitInt ch
    if ch = 0 ∨ c < 0 ∨ c ≥ base then ⟨result, overflow, saw_a_digit, ch :: nptr⟩
    else if overflow ∨ result > max / base then scanDigits max base nptr result true true
    else if c > max - result * base then scanDigits max base nptr (result * base) true true
    else scanDigits max base nptr (result * base + c) false true

/-- The common part of the two functions: whether the number is negative, and its digits. -/
def strto (max : ℤ) (nptr : List Ascii) (base : ℕ) : Bool × Scan :=
  let nptr := nptr.dropWhile isspace
  let negative : Bool := deref nptr = MINUS
  let nptr := if deref nptr = PLUS ∨ deref nptr = MINUS then nptr.tail else nptr
  let (base, nptr) := stripBase base nptr
  (negative, scanDigits max base nptr 0 false false)

/-- What is returned, what is stored through `endptr`, and whether `errno` is set to `ERANGE`. -/
structure StrtoRet where
  value : ℤ
  endptr : List Ascii
  erange : Bool

def strtol (nptr : List Ascii) (base : ℕ) : StrtoRet :=
  let (negative, s) := strto LONG_MAX nptr base
  if !s.saw_a_digit then ⟨0, nptr, false⟩
  else if s.overflow then ⟨if negative then LONG_MIN else LONG_MAX, s.nptr, true⟩
  else ⟨if negative then 0 - s.result else s.result, s.nptr, false⟩

def strtoul (nptr : List Ascii) (base : ℕ) : StrtoRet :=
  let (negative, s) := strto ULONG_MAX nptr base
  if !s.saw_a_digit then ⟨0, nptr, false⟩
  else if s.overflow then ⟨ULONG_MAX, s.nptr, true⟩
  else ⟨(if negative then 0 - s.result else s.result) % 2 ^ 32, s.nptr, false⟩

/-! ## What they should do -/

/-- A number as a long, and whether it is out of range. -/
def longOf (negative : Bool) (n : ℕ) : ℤ × Bool :=
  let v : ℤ := if negative then -n else n
  if LONG_MAX < v then (LONG_MAX, true) else if v < LONG_MIN then (LONG_MIN, true) else (v, false)

/-- A number as an unsigned long, in which a negative one is negated, and whether it is out of
range. -/
def ulongOf (negative : Bool) (n : ℕ) : ℤ × Bool :=
  if ULONG_MAX < n then (ULONG_MAX, true) else ((if negative then -(n : ℤ) else n) % 2 ^ 32, false)

/-- The longest numeral that the string begins with has been converted, and `endptr` is behind it;
or there is none, and `endptr` is where the string begins. -/
def Conforms (value : Bool → ℕ → ℤ × Bool) (base : ℕ) (nptr : List Ascii) (r : StrtoRet) : Prop :=
  (∃ n, IsLongest base nptr n r.endptr ∧
    (r.value, r.erange) = value n.negative (numeral n.radix n.digits)) ∨
  (∀ n rest, Numeral.Form base n → nptr ≠ n.text ++ rest) ∧ r = ⟨0, nptr, false⟩

/-- The characters from `[` to the grave accent. -/
def isBracket (c : Ascii) : Bool := 91 ≤ c.val && c.val ≤ 96

/-- A character that is no digit, and is taken for one of a base. -/
def PassesFor (radix : ℕ) (c : Ascii) : Prop := isBracket c ∧ c.val - 87 < radix

/-- A string in which a digit follows a leading zero that is skipped, and what follows the digits is
not taken for one. -/
structure Regular (base : ℕ) (nptr : List Ascii) : Prop where
  zero : base = 0 ∨ base = 16 → deref (skipSign (skipSpace nptr)).2 = ZERO →
    isDigitOf (stripBase base (skipSign (skipSpace nptr)).2).1
      (deref (stripBase base (skipSign (skipSpace nptr)).2).2)
  behind : ¬PassesFor (stripBase base (skipSign (skipSpace nptr)).2).1
    (deref ((stripBase base (skipSign (skipSpace nptr)).2).2.dropWhile
      (isDigitOf (stripBase base (skipSign (skipSpace nptr)).2).1)))

/-! ## Digits -/

variable {radix base : ℕ} {c : Ascii} {p q ds rest nptr : List Ascii} {max : ℤ}

/-- What the conversion takes for a digit. -/
def isTaken (radix : ℕ) (c : Ascii) : Bool := 0 ≤ digitInt c ∧ digitInt c < radix

theorem digitInt_digit : ∀ c : Ascii, ∀ v ∈ digitVal c, digitInt c = v := by decide

theorem digitInt_bracket : ∀ c : Ascii, isBracket c →
    digitVal c = none ∧ digitInt c = (c.val - 87 : ℕ) := by decide

theorem digitInt_other : ∀ c : Ascii, digitVal c = none → isBracket c = false →
    digitInt c < 0 ∨ 36 ≤ digitInt c := by decide

theorem isTaken_iff (h : radix ≤ 36) : isTaken radix c ↔ isDigitOf radix c ∨ PassesFor radix c := by
  unfold isTaken isDigitOf PassesFor
  rw [decide_eq_true_iff]
  cases hv : digitVal c with
  | some v =>
    have hc := digitInt_digit c v hv
    have hb : isBracket c = false := by
      rw [Bool.eq_false_iff]
      intro hb
      rw [(digitInt_bracket c hb).1] at hv
      exact absurd hv (by simp)
    rw [hc, hb]
    simp
  | none =>
    cases hb : isBracket c with
    | true =>
      rw [(digitInt_bracket c hb).2]
      simp
    | false =>
      have hc := digitInt_other c hv hb
      simp only [Option.any_none, Bool.false_eq_true, false_and, or_false, iff_false]
      omega

/-- What the conversion makes of digits. -/
def taken (radix : ℕ) (ds : List Ascii) (n : ℤ) : ℤ := ds.foldl (fun n c => n * radix + digitInt c) n

theorem taken_le (hds : ∀ c ∈ ds, isTaken radix c) (hradix : 1 ≤ radix) {n : ℤ} (hn : 0 ≤ n) :
    n ≤ taken radix ds n := by
  induction ds generalizing n with
  | nil => exact le_refl n
  | cons c ds ih =>
    have hc : 0 ≤ digitInt c := (of_decide_eq_true (hds c List.mem_cons_self)).1
    have hmul : n ≤ n * radix := le_mul_of_one_le_right hn (by exact_mod_cast hradix)
    calc n ≤ n * radix + digitInt c := by omega
      _ ≤ taken radix ds (n * radix + digitInt c) :=
        ih (fun c hc => hds c (List.mem_cons_of_mem _ hc)) (by omega)

/-- The conversion stops at what it does not take. -/
theorem stops_iff : c = 0 ∨ digitInt c < 0 ∨ digitInt c ≥ radix ↔ isTaken radix c = false := by
  have hzero : digitInt 0 = -87 := by decide
  unfold isTaken
  rw [decide_eq_false_iff_not]
  constructor
  · rintro (rfl | h | h)
    · omega
    · omega
    · omega
  · intro h
    right
    omega

/-- Once there has been an overflow the digits are skipped. -/
theorem scanDigits_overflow (max : ℤ) (radix : ℕ) (p : List Ascii) (result : ℤ) (saw : Bool) :
    let s := scanDigits max radix p result true saw
    s.nptr = p.dropWhile (isTaken radix) ∧
      s.saw_a_digit = (saw || !(p.takeWhile (isTaken radix)).isEmpty) ∧ s.overflow = true := by
  induction p generalizing saw with
  | nil => simp [scanDigits]
  | cons c p ih =>
    cases hc : isTaken radix c with
    | false =>
      dsimp only [scanDigits]
      rw [if_pos (stops_iff.mpr hc), List.dropWhile_cons_of_neg (by simp [hc]),
        List.takeWhile_cons_of_neg (by simp [hc])]
      simp
    | true =>
      have hstop := stops_iff.not.mpr (Bool.eq_false_iff.not.mpr (not_not.mpr hc))
      obtain ⟨hnptr, hsaw, hover⟩ := ih true
      dsimp only [scanDigits]
      rw [if_neg hstop, if_pos (Or.inl rfl), List.dropWhile_cons_of_pos hc,
        List.takeWhile_cons_of_pos hc]
      exact ⟨hnptr, by rw [hsaw]; simp, hover⟩

/-- The conversion takes all it takes for digits, and overflows where they stand for too much. -/
theorem scanDigits_spec (hradix : 1 ≤ radix) (result : ℤ) (hlo : 0 ≤ result) (hhi : result ≤ max)
    (saw : Bool) :
    let s := scanDigits max radix p result false saw
    let ds := p.takeWhile (isTaken radix)
    s.nptr = p.dropWhile (isTaken radix) ∧ s.saw_a_digit = (saw || !ds.isEmpty) ∧
      (s.overflow = true ↔ max < taken radix ds result) ∧
      (s.overflow = false → s.result = taken radix ds result) := by
  induction p generalizing result saw with
  | nil =>
    refine ⟨rfl, by simp [scanDigits], ?_, fun _ => rfl⟩
    exact ⟨fun h => absurd h Bool.false_ne_true, fun h => absurd h (not_lt.mpr hhi)⟩
  | cons c p ih =>
    cases hc : isTaken radix c with
    | false =>
      dsimp only [scanDigits]
      rw [if_pos (stops_iff.mpr hc), List.dropWhile_cons_of_neg (by simp [hc]),
        List.takeWhile_cons_of_neg (by simp [hc])]
      refine ⟨rfl, by simp, ?_, fun _ => rfl⟩
      exact ⟨fun h => absurd h Bool.false_ne_true, fun h => absurd h (not_lt.mpr hhi)⟩
    | true =>
      have hstop := stops_iff.not.mpr (Bool.eq_false_iff.not.mpr (not_not.mpr hc))
      have hpos : 0 ≤ digitInt c := (of_decide_eq_true hc).1
      have hmul : 0 ≤ result * radix := mul_nonneg hlo (Int.natCast_nonneg _)
      -- what the digits stand for is no less than what the first ones do
      have hle : result * radix + digitInt c ≤
          taken radix (p.takeWhile (isTaken radix)) (result * radix + digitInt c) :=
        taken_le (fun c hc => List.mem_takeWhile_imp hc) hradix (by omega)
      dsimp only [scanDigits]
      rw [if_neg hstop, List.dropWhile_cons_of_pos hc, List.takeWhile_cons_of_pos hc]
      change _ ∧ _ ∧ (_ ↔ max < taken radix (p.takeWhile (isTaken radix))
        (result * radix + digitInt c)) ∧ (_ → _ = taken radix (p.takeWhile (isTaken radix))
        (result * radix + digitInt c))
      by_cases hlimit : result > max / radix
      · have hover : max < result * radix := by
          have hr : (0 : ℤ) < radix := by exact_mod_cast hradix
          exact (Int.ediv_lt_iff_lt_mul hr).mp hlimit
        obtain ⟨hnptr, hsaw, htrue⟩ := scanDigits_overflow max radix p result true
        rw [if_pos (Or.inr hlimit)]
        refine ⟨hnptr, by rw [hsaw]; simp, ?_, fun h => absurd h (by rw [htrue]; simp)⟩
        exact ⟨fun _ => by omega, fun _ => htrue⟩
      · rw [if_neg (by simpa using hlimit)]
        by_cases hadd : digitInt c > max - result * radix
        · obtain ⟨hnptr, hsaw, htrue⟩ := scanDigits_overflow max radix p (result * radix) true
          rw [if_pos hadd]
          refine ⟨hnptr, by rw [hsaw]; simp, ?_, fun h => absurd h (by rw [htrue]; simp)⟩
          exact ⟨fun _ => by omega, fun _ => htrue⟩
        · obtain ⟨hnptr, hsaw, hover, hresult⟩ := ih (result * radix + digitInt c) (by omega)
            (by omega) true
          rw [if_neg hadd]
          exact ⟨hnptr, by rw [hsaw]; simp, hover, hresult⟩

/-- On digits the conversion makes what they stand for. -/
theorem taken_eq_numeral (hds : ∀ c ∈ ds, isDigitOf radix c) : taken radix ds 0 = numeral radix ds := by
  suffices ∀ n : ℕ, taken radix ds n =
      (ds.foldl (fun n c => n * radix + (digitVal c).getD 0) n : ℕ) from this 0
  intro n
  induction ds generalizing n with
  | nil => rfl
  | cons c ds ih =>
    obtain ⟨v, hv⟩ := Option.isSome_iff_exists.mp (isDigitOf_isSome (hds c List.mem_cons_self))
    have hstep : (n : ℤ) * radix + digitInt c = ((n * radix + (digitVal c).getD 0 : ℕ) : ℤ) := by
      rw [digitInt_digit c v hv, hv]
      push_cast
      rfl
    dsimp only [taken, List.foldl_cons]
    rw [hstep]
    exact ih (fun c hc => hds c (List.mem_cons_of_mem _ hc)) _

/-- Where no punctuation follows the digits, these are what is taken. -/
theorem takeWhile_taken (hradix : radix ≤ 36)
    (h : ¬PassesFor radix (deref (q.dropWhile (isDigitOf radix)))) :
    q.takeWhile (isTaken radix) = q.takeWhile (isDigitOf radix) ∧
      q.dropWhile (isTaken radix) = q.dropWhile (isDigitOf radix) := by
  induction q with
  | nil => exact ⟨rfl, rfl⟩
  | cons c q ih =>
    cases hc : isDigitOf radix c with
    | true =>
      have ht : isTaken radix c = true := (isTaken_iff hradix).mpr (Or.inl hc)
      rw [List.dropWhile_cons_of_pos hc] at h
      obtain ⟨htake, hdrop⟩ := ih h
      rw [List.takeWhile_cons_of_pos hc, List.takeWhile_cons_of_pos ht, htake,
        List.dropWhile_cons_of_pos hc, List.dropWhile_cons_of_pos ht, hdrop]
      exact ⟨rfl, rfl⟩
    | false =>
      have hneg : ¬isDigitOf radix c = true := by rw [hc]; simp
      rw [List.dropWhile_cons_of_neg hneg] at h
      have ht : ¬isTaken radix c = true := by
        rw [isTaken_iff hradix]
        exact not_or.mpr ⟨hneg, h⟩
      rw [List.takeWhile_cons_of_neg hneg, List.takeWhile_cons_of_neg ht,
        List.dropWhile_cons_of_neg hneg, List.dropWhile_cons_of_neg ht]
      exact ⟨rfl, rfl⟩

/-- Where it does, more is taken. -/
theorem dropWhile_taken (hradix : radix ≤ 36)
    (h : PassesFor radix (deref (q.dropWhile (isDigitOf radix)))) :
    q.takeWhile (isTaken radix) ≠ [] ∧
      (q.dropWhile (isTaken radix)).length < (q.dropWhile (isDigitOf radix)).length := by
  induction q with
  | nil =>
    have hnull : isBracket (deref []) = false := by decide
    exact absurd h.1 (by rw [List.dropWhile_nil, hnull]; simp)
  | cons c q ih =>
    cases hc : isDigitOf radix c with
    | true =>
      have ht : isTaken radix c = true := (isTaken_iff hradix).mpr (Or.inl hc)
      rw [List.dropWhile_cons_of_pos hc] at h
      rw [List.takeWhile_cons_of_pos ht, List.dropWhile_cons_of_pos hc,
        List.dropWhile_cons_of_pos ht]
      exact ⟨List.cons_ne_nil _ _, (ih h).2⟩
    | false =>
      have hneg : ¬isDigitOf radix c = true := by rw [hc]; simp
      rw [List.dropWhile_cons_of_neg hneg] at h
      have ht : isTaken radix c = true := (isTaken_iff hradix).mpr (Or.inr h)
      rw [List.takeWhile_cons_of_pos ht, List.dropWhile_cons_of_neg hneg,
        List.dropWhile_cons_of_pos ht]
      exact ⟨List.cons_ne_nil _ _, Nat.lt_succ_of_le (List.dropWhile_suffix _).length_le⟩

/-! ## The beginning of a numeral -/

/-- The bases that the functions are for. -/
def IsBase (base : ℕ) : Prop := base = 0 ∨ 2 ≤ base ∧ base ≤ 36

theorem stripBase_radix (h : IsBase base) :
    1 ≤ (stripBase base p).1 ∧ (stripBase base p).1 ≤ 36 := by
  unfold stripBase
  dsimp only
  split_ifs
  all_goals dsimp only
  all_goals have h := h
  all_goals unfold IsBase at h
  all_goals omega

/-- What is stripped is in front of what is left. -/
theorem stripBase_suffix (base : ℕ) (p : List Ascii) : (stripBase base p).2 <:+ p := by
  unfold stripBase
  dsimp only
  split_ifs
  all_goals first
    | exact List.suffix_refl p
    | exact List.tail_suffix p
    | exact (List.tail_suffix _).trans (List.tail_suffix p)

/-- The sign is found where it is looked for. -/
theorem strto_eq (max : ℤ) (nptr : List Ascii) (base : ℕ) :
    let x := stripBase base (skipSign (skipSpace nptr)).2
    strto max nptr base = (decide ((skipSign (skipSpace nptr)).1 = [MINUS]),
      scanDigits max x.1 x.2 0 false false) := by
  unfold strto skipSpace
  cases nptr.dropWhile isspace with
  | nil => rfl
  | cons c p =>
    by_cases hplus : c = PLUS
    · subst hplus
      rfl
    · by_cases hminus : c = MINUS
      · subst hminus
        rfl
      · simp [skipSign, deref, hplus, hminus]

/-- A mark of hexadecimal is behind a zero. -/
theorem hexTail_of_ne (h : deref p ≠ ZERO) : hexTail p = none := by
  unfold hexTail
  split
  case h_1 c x q => exact if_neg fun hif => h hif.1
  case h_2 => rfl

/-- What is stripped where there is a zero. -/
theorem stripBase_zero (hbase : base = 0 ∨ base = 16) (q : List Ascii) :
    stripBase base (ZERO :: q) =
      if deref q = LOWER_X ∨ base = 0 ∧ deref q = UPPER_X then (16, q.tail)
      else (if base = 0 then 8 else 16, q) := by
  have hone : (1 : Ascii) ≠ 0 := by decide
  have hnull : (0 : Ascii) ≠ UPPER_X := by decide
  rcases hbase with rfl | rfl
  · simp [stripBase, deref]
  · have hderef : deref (ZERO :: q) = ZERO := rfl
    unfold stripBase
    dsimp only [List.tail_cons]
    rw [if_neg (by decide), if_pos ⟨rfl, hderef⟩]
    by_cases hx : deref q = LOWER_X
    · rw [if_pos hx, if_pos (Or.inl hone), if_pos (Or.inl hx)]
    · rw [if_neg hx, if_neg (not_or.mpr ⟨not_not.mpr rfl, hnull⟩),
        if_neg (not_or.mpr ⟨hx, fun h => absurd h.1 (by decide)⟩)]
      rfl

/-- Where there is none. -/
theorem stripBase_other (h : ¬((base = 0 ∨ base = 16) ∧ deref p = ZERO)) :
    stripBase base p = (if base = 0 then 10 else base, p) := by
  unfold stripBase
  by_cases h0 : base = 0
  · rw [if_pos h0, if_pos h0, if_neg fun hp => h ⟨Or.inl h0, hp⟩]
  · rw [if_neg h0, if_neg h0, if_neg fun hp => h ⟨Or.inr hp.1, hp.2⟩]

theorem head?_eq_zero : p.head? = some ZERO ↔ deref p = ZERO := by
  cases p with
  | nil => exact ⟨fun h => absurd h (by simp), fun h => absurd h (by decide)⟩
  | cons c p => exact ⟨Option.some.inj, congrArg some⟩

/-- No digit is a null character. -/
theorem exists_cons_of_digit (h : isDigitOf radix (deref q)) : ∃ c r, q = c :: r ∧
    isDigitOf radix c := by
  cases q with
  | nil =>
    have hnull : digitVal (deref []) = none := by decide
    unfold isDigitOf at h
    rw [hnull] at h
    exact absurd h (by simp)
  | cons c r => exact ⟨c, r, rfl, h⟩

/-- In a string without a leading zero, or with a digit behind what is skipped for one, the digits
are those of the longest numeral, but for the zero. -/
theorem findLead_of_zero (h : base = 0 ∨ base = 16 → deref p = ZERO →
      isDigitOf (stripBase base p).1 (deref (stripBase base p).2)) :
    (findLead base p).1 = (stripBase base p).1 ∧
      ((findLead base p).2.2 = (stripBase base p).2 ∨
        (findLead base p).2.2 = ZERO :: (stripBase base p).2 ∧
          isDigitOf (stripBase base p).1 ZERO ∧
          isDigitOf (stripBase base p).1 (deref (stripBase base p).2)) := by
  by_cases hzero : (base = 0 ∨ base = 16) ∧ deref p = ZERO
  · obtain ⟨hbase, hp⟩ := hzero
    have hdigit := h hbase hp
    obtain ⟨q, rfl⟩ : ∃ q, p = ZERO :: q := by
      cases p with
      | nil => exact absurd hp (by decide)
      | cons c q => exact ⟨q, by rw [show c = ZERO from hp]⟩
    rw [stripBase_zero hbase] at hdigit ⊢
    by_cases hmark : deref q = LOWER_X ∨ base = 0 ∧ deref q = UPPER_X
    · -- a mark in front of a digit
      rw [if_pos hmark] at hdigit ⊢
      obtain ⟨c, r, hr, hc⟩ := exists_cons_of_digit hdigit
      obtain ⟨x, rfl⟩ : ∃ x, q = x :: c :: r := by
        cases q with
        | nil => exact absurd hr (by simp)
        | cons x q => exact ⟨x, by rw [← hr]; rfl⟩
      have hm : IsHexMark [ZERO, x] := by
        rcases hmark with hx | ⟨-, hx⟩
        · exact Or.inl (by rw [show x = LOWER_X from hx])
        · exact Or.inr (by rw [show x = UPPER_X from hx])
      have hfind : findLead base (ZERO :: x :: c :: r) = (16, [ZERO, x], c :: r) :=
        findLead_mark hbase hm hc
      rw [hfind]
      exact ⟨rfl, Or.inl rfl⟩
    · -- a zero in front of a digit
      rw [if_neg hmark] at hdigit ⊢
      dsimp only at hdigit ⊢
      have hradix : (if base = 0 then 8 else 16) ≤ 33 := by split_ifs <;> omega
      obtain ⟨hl, hu⟩ := not_isDigitOf_x hradix
      have hnone : hexTail (ZERO :: q) = none := by
        rw [← Option.not_isSome_iff_eq_none]
        intro hsome
        obtain ⟨r, hr⟩ := Option.isSome_iff_exists.mp hsome
        obtain ⟨lead, c, r', hm, -, -, heq⟩ := hexTail_some hr
        rcases hm with rfl | rfl
        · have hq : q = LOWER_X :: r := (List.cons.inj heq).2
          have hx : deref (LOWER_X :: r) = LOWER_X := rfl
          rw [hq, hx, hl] at hdigit
          exact absurd hdigit Bool.false_ne_true
        · have hq : q = UPPER_X :: r := (List.cons.inj heq).2
          have hx : deref (UPPER_X :: r) = UPPER_X := rfl
          rw [hq, hx, hu] at hdigit
          exact absurd hdigit Bool.false_ne_true
      rw [findLead_plain fun _ => hnone]
      rcases hbase with rfl | rfl
      · exact ⟨rfl, Or.inr ⟨rfl, by decide, hdigit⟩⟩
      · exact ⟨rfl, Or.inr ⟨rfl, by decide, hdigit⟩⟩
  · rw [stripBase_other hzero]
    have hnone : base = 0 ∨ base = 16 → hexTail p = none :=
      fun hbase => hexTail_of_ne fun hp => hzero ⟨hbase, hp⟩
    rw [findLead_plain hnone]
    refine ⟨?_, Or.inl rfl⟩
    split_ifs with h0 hhead
    · exact absurd ⟨Or.inl h0, head?_eq_zero.mp hhead⟩ hzero
    · rfl
    · rfl

/-- So the two are the same numeral. -/
theorem digits_of_zero (h : base = 0 ∨ base = 16 → deref p = ZERO →
      isDigitOf (stripBase base p).1 (deref (stripBase base p).2)) :
    let x := findLead base p
    let y := stripBase base p
    x.1 = y.1 ∧ (x.2.2.takeWhile (isDigitOf x.1) = [] ↔ y.2.takeWhile (isDigitOf y.1) = []) ∧
      x.2.2.dropWhile (isDigitOf x.1) = y.2.dropWhile (isDigitOf y.1) ∧
      numeral x.1 (x.2.2.takeWhile (isDigitOf x.1)) =
        numeral y.1 (y.2.takeWhile (isDigitOf y.1)) := by
  intro x y
  obtain ⟨hradix, hq | ⟨hq, hzero, hdigit⟩⟩ := findLead_of_zero h
  · rw [show x.1 = y.1 from hradix, show x.2.2 = y.2 from hq]
    exact ⟨rfl, Iff.rfl, rfl, rfl⟩
  · rw [show x.1 = y.1 from hradix, show x.2.2 = ZERO :: y.2 from hq,
      List.takeWhile_cons_of_pos hzero, List.dropWhile_cons_of_pos hzero]
    obtain ⟨c, r, hr, hc⟩ := exists_cons_of_digit hdigit
    have hy : y.2.takeWhile (isDigitOf y.1) ≠ [] := by
      rw [show y.2 = c :: r from hr, List.takeWhile_cons_of_pos hc]
      exact List.cons_ne_nil _ _
    refine ⟨rfl, iff_of_false (List.cons_ne_nil _ _) hy, rfl, ?_⟩
    have hval : (digitVal ZERO).getD 0 = 0 := by decide
    unfold numeral
    rw [List.foldl_cons, hval, Nat.zero_mul]

/-- In a regular string the two functions find the longest numeral. -/
theorem strto_regular (hbase : IsBase base) (h : Regular base nptr) (hmax : 0 ≤ max) :
    let s := (strto max nptr base).2
    (longest base nptr = none → s.saw_a_digit = false) ∧
      ∀ n rest, longest base nptr = some (n, rest) →
        (strto max nptr base).1 = n.negative ∧ s.saw_a_digit = true ∧ s.nptr = rest ∧
        (s.overflow = true ↔ max < numeral n.radix n.digits) ∧
        (s.overflow = false → s.result = numeral n.radix n.digits) := by
  obtain ⟨hradix, hnil, hrest, hvalue⟩ := digits_of_zero h.zero
  set p := (skipSign (skipSpace nptr)).2 with hp
  obtain ⟨hone, hle⟩ := stripBase_radix (p := p) hbase
  obtain ⟨htake, hdrop⟩ := takeWhile_taken hle h.behind
  obtain ⟨hnptr, hsaw, hover, hresult⟩ :=
    scanDigits_spec (p := (stripBase base p).2) hone 0 (le_refl 0) hmax false
  have hnum : taken (stripBase base p).1 ((stripBase base p).2.takeWhile
      (isTaken (stripBase base p).1)) 0 = numeral (findLead base p).1
        ((findLead base p).2.2.takeWhile (isDigitOf (findLead base p).1)) := by
    rw [htake, hvalue, taken_eq_numeral fun c hc => List.mem_takeWhile_imp hc]
  rw [hnum] at hover hresult
  rw [htake] at hsaw
  rw [hdrop, ← hrest] at hnptr
  rw [strto_eq]
  intro s
  constructor
  · intro hlongest
    have hempty : (findLead base p).2.2.takeWhile (isDigitOf (findLead base p).1) = [] := by
      by_contra hne
      unfold longest at hlongest
      dsimp only at hlongest
      rw [if_neg hne] at hlongest
      exact absurd hlongest (by simp)
    rw [show s.saw_a_digit = _ from hsaw, hnil.mp hempty]
    rfl
  · intro n rest hlongest
    unfold longest at hlongest
    dsimp only at hlongest
    split_ifs at hlongest with hne
    obtain ⟨rfl, rfl⟩ := Prod.mk.inj (Option.some.inj hlongest)
    refine ⟨rfl, ?_, hnptr, hover, hresult⟩
    rw [show s.saw_a_digit = _ from hsaw]
    have hne' := hnil.not.mp hne
    cases hds : (stripBase base p).2.takeWhile (isDigitOf (stripBase base p).1) with
    | nil => exact absurd hds hne'
    | cons c ds => rfl

/-- Where the longest numeral ends, which is the beginning of the string where there is none. -/
def numeralEnd (base : ℕ) (nptr : List Ascii) : List Ascii :=
  match longest base nptr with
  | some (_, rest) => rest
  | none => nptr

/-- Punctuation is no digit. -/
theorem not_digit_of_bracket (h : isBracket c) : isDigitOf radix c = false := by
  unfold isDigitOf
  rw [(digitInt_bracket c h).1]
  rfl

theorem dropWhile_of_head (h : isDigitOf radix (deref q) = false) :
    q.dropWhile (isDigitOf radix) = q := by
  cases q with
  | nil => rfl
  | cons c q => exact List.dropWhile_cons_of_neg (by rw [show isDigitOf radix c = false from h]; simp)

/-- Where no digit follows a zero that is skipped, the longest numeral does not end behind the place
that the digits are looked for from, if punctuation is there. -/
theorem zero_le_end (hbase : base = 0 ∨ base = 16) (hp : deref p = ZERO)
    (hdigit : ¬isDigitOf (stripBase base p).1 (deref (stripBase base p).2))
    (hbracket : isBracket (deref (stripBase base p).2)) :
    (stripBase base p).2.length ≤
      ((findLead base p).2.2.dropWhile (isDigitOf (findLead base p).1)).length := by
  obtain ⟨q, rfl⟩ : ∃ q, p = ZERO :: q := by
    cases p with
    | nil => exact absurd hp (by decide)
    | cons c q => exact ⟨q, by rw [show c = ZERO from hp]⟩
  have hnone : hexTail (ZERO :: q) = none := by
    rw [← Option.not_isSome_iff_eq_none]
    intro hsome
    obtain ⟨r, hr⟩ := Option.isSome_iff_exists.mp hsome
    obtain ⟨lead, c, r', hm, rfl, hc, heq⟩ := hexTail_some hr
    rw [stripBase_zero hbase] at hdigit hbracket
    -- Either the digit behind the mark is found, or an X in front of it.
    by_cases hmark : deref q = LOWER_X ∨ base = 0 ∧ deref q = UPPER_X
    · rw [if_pos hmark] at hdigit
      have htail : q.tail = c :: r' := by
        rcases hm with rfl | rfl
        · rw [(List.cons.inj heq).2]
          rfl
        · rw [(List.cons.inj heq).2]
          rfl
      dsimp only at hdigit
      rw [htail] at hdigit
      exact hdigit hc
    · rw [if_neg hmark] at hbracket
      dsimp only at hbracket
      have hx : isBracket LOWER_X = false ∧ isBracket UPPER_X = false := by decide
      rcases hm with rfl | rfl
      · have hq : q = LOWER_X :: c :: r' := (List.cons.inj heq).2
        rw [hq] at hbracket
        exact absurd (hx.1.symm.trans hbracket) Bool.false_ne_true
      · have hq : q = UPPER_X :: c :: r' := (List.cons.inj heq).2
        rw [hq] at hbracket
        exact absurd (hx.2.symm.trans hbracket) Bool.false_ne_true
  rw [findLead_plain fun _ => hnone]
  rw [stripBase_zero hbase] at hbracket ⊢
  have hradix : (if base = 0 then if (ZERO :: q).head? = some ZERO then 8 else 10 else base) =
      if base = 0 then 8 else 16 := by
    rcases hbase with rfl | rfl
    · rfl
    · rfl
  dsimp only
  rw [hradix]
  have hzero : isDigitOf (if base = 0 then 8 else 16) ZERO = true := by
    split_ifs
    · decide
    · decide
  have hle : (if base = 0 then 8 else 16) ≤ 33 := by split_ifs <;> omega
  obtain ⟨hl, hu⟩ := not_isDigitOf_x hle
  rw [List.dropWhile_cons_of_pos hzero]
  by_cases hmark : deref q = LOWER_X ∨ base = 0 ∧ deref q = UPPER_X
  · rw [if_pos hmark]
    have hhead : isDigitOf (if base = 0 then 8 else 16) (deref q) = false := by
      rcases hmark with hx | ⟨-, hx⟩
      · rw [hx, hl]
      · rw [hx, hu]
    rw [dropWhile_of_head hhead]
    exact (List.tail_suffix q).length_le
  · rw [if_neg hmark] at hbracket ⊢
    rw [dropWhile_of_head (not_digit_of_bracket hbracket)]

/-- In a string that is not regular they end somewhere else. -/
theorem strto_irregular (hbase : IsBase base) (h : ¬Regular base nptr) (hmax : 0 ≤ max) :
    let s := (strto max nptr base).2
    (if s.saw_a_digit then s.nptr else nptr) ≠ numeralEnd base nptr := by
  set p := (skipSign (skipSpace nptr)).2 with hp
  obtain ⟨hone, hle⟩ := stripBase_radix (p := p) hbase
  obtain ⟨hnptr, hsaw, -, -⟩ :=
    scanDigits_spec (p := (stripBase base p).2) hone 0 (le_refl 0) hmax false
  have hsuffix : (stripBase base p).2.length ≤ nptr.length := by
    have h1 := (stripBase_suffix base p).length_le
    have h2 : p.length ≤ (skipSpace nptr).length := by
      conv_rhs => rw [(skipSign_spec (skipSpace nptr)).1, List.length_append]
      exact Nat.le_add_left _ _
    have h3 : (skipSpace nptr).length ≤ nptr.length := (List.dropWhile_suffix _).length_le
    omega
  have hend : numeralEnd base nptr = (findLead base p).2.2.dropWhile (isDigitOf (findLead base p).1) ∧
      longest base nptr ≠ none ∨ numeralEnd base nptr = nptr ∧
      (findLead base p).2.2.takeWhile (isDigitOf (findLead base p).1) = [] := by
    unfold numeralEnd longest
    dsimp only
    split_ifs with hne
    · exact Or.inr ⟨rfl, hne⟩
    · exact Or.inl ⟨rfl, Option.some_ne_none _⟩
  rw [strto_eq]
  intro s
  rw [show s.nptr = _ from hnptr, show s.saw_a_digit = _ from hsaw]
  by_cases hz : base = 0 ∨ base = 16 → deref p = ZERO →
      isDigitOf (stripBase base p).1 (deref (stripBase base p).2)
  · -- punctuation follows the digits
    have hpass : PassesFor (stripBase base p).1
        (deref ((stripBase base p).2.dropWhile (isDigitOf (stripBase base p).1))) := by
      by_contra hbehind
      exact h ⟨hz, hbehind⟩
    obtain ⟨htake, hlt⟩ := dropWhile_taken hle hpass
    obtain ⟨-, -, hrest, -⟩ := digits_of_zero hz
    have hshort := (List.dropWhile_suffix (l := (stripBase base p).2)
      (isDigitOf (stripBase base p).1)).length_le
    rw [if_pos (by simpa using htake)]
    intro heq
    rw [heq] at hlt
    rcases hend with ⟨hend, -⟩ | ⟨hend, -⟩
    · rw [hend, hrest] at hlt
      exact lt_irrefl _ hlt
    · rw [hend] at hlt
      omega
  · -- no digit follows a zero that is skipped
    obtain ⟨hbase', hz⟩ := Classical.not_imp.mp hz
    obtain ⟨hpz, hdigit⟩ := Classical.not_imp.mp hz
    have hzero : (findLead base p).2.2.takeWhile (isDigitOf (findLead base p).1) ≠ [] := by
      obtain ⟨q, hq⟩ : ∃ q, p = [] ++ ([ZERO] ++ q) := by
        cases hpq : p with
        | nil =>
          rw [hpq] at hpz
          exact absurd hpz (by decide)
        | cons c q =>
          rw [hpq] at hpz
          exact ⟨q, by rw [show c = ZERO from hpz]; rfl⟩
      have hfits : LeadFits base (if base = 0 then 8 else 16) [] [ZERO] := by
        rcases hbase' with rfl | rfl
        · exact Or.inr (Or.inl ⟨rfl, rfl, rfl⟩)
        · exact ⟨rfl, Or.inl rfl⟩
      rw [hq]
      refine (findLead_le q hfits (List.cons_ne_nil _ _) fun c hc => ?_).1
      obtain rfl := List.mem_singleton.mp hc
      split_ifs
      · decide
      · decide
    obtain ⟨hend, hsome⟩ := hend.resolve_right fun h => hzero h.2
    by_cases htake : (stripBase base p).2.takeWhile (isTaken (stripBase base p).1) = []
    · -- nothing is taken, but the longest numeral is at least a zero
      rw [htake, if_neg (by simp)]
      obtain ⟨⟨n, rest⟩, hlongest⟩ := Option.ne_none_iff_exists'.mp hsome
      obtain ⟨hform, htext⟩ := longest_form hlongest
      have hrest : numeralEnd base nptr = rest := by
        unfold numeralEnd
        rw [hlongest]
      rw [hrest]
      intro heq
      have hempty : n.text = [] := by
        rw [← heq] at htext
        exact List.append_left_eq_self.mp htext.symm
      unfold Numeral.text at hempty
      simp only [List.append_eq_nil_iff] at hempty
      exact hform.nonempty hempty.2.2.2
    · -- punctuation is taken
      rw [if_pos (by simpa using htake), hend]
      intro heq
      obtain ⟨c, q, hq, hc⟩ : ∃ c q, (stripBase base p).2 = c :: q ∧
          isTaken (stripBase base p).1 c := by
        cases hy : (stripBase base p).2 with
        | nil => exact absurd (by rw [hy]; rfl) htake
        | cons c q =>
          refine ⟨c, q, rfl, ?_⟩
          by_contra hc
          exact htake (by rw [hy, List.takeWhile_cons_of_neg hc])
      have hderef : deref (stripBase base p).2 = c := by
        rw [hq]
        rfl
      have hbracket : isBracket (deref (stripBase base p).2) := by
        rw [hderef] at hdigit ⊢
        exact (((isTaken_iff hle).mp hc).resolve_left hdigit).1
      have hlong := zero_le_end hbase' hpz hdigit hbracket
      have hshort := (List.dropWhile_suffix (l := q) (isTaken (stripBase base p).1)).length_le
      rw [← heq, hq, List.dropWhile_cons_of_pos hc, List.length_cons] at hlong
      omega

/-! ## The grammar -/

/-- What the functions should do, in terms of what is found. -/
theorem conforms_iff {value : Bool → ℕ → ℤ × Bool} {r : StrtoRet} :
    Conforms value base nptr r ↔
      (∀ n rest, longest base nptr = some (n, rest) → r.endptr = rest ∧
        (r.value, r.erange) = value n.negative (numeral n.radix n.digits)) ∧
      (longest base nptr = none → r = ⟨0, nptr, false⟩) := by
  unfold Conforms
  rw [← longest_eq_none]
  cases hlongest : longest base nptr with
  | none =>
    simp only [← longest_spec, hlongest]
    simp
  | some x =>
    obtain ⟨n, rest⟩ := x
    simp only [← longest_spec, hlongest]
    simp only [Option.some.injEq, Prod.mk.injEq, reduceCtorEq, false_and, or_false, false_imp_iff,
      and_true]
    constructor
    · rintro ⟨n', ⟨rfl, rfl⟩, hvalue⟩ n'' rest'' ⟨rfl, rfl⟩
      exact ⟨rfl, hvalue⟩
    · intro h
      obtain ⟨hend, hvalue⟩ := h n rest ⟨rfl, rfl⟩
      exact ⟨n, ⟨rfl, hend.symm⟩, hvalue⟩

/-- What conforms ends where the longest numeral does. -/
theorem Conforms.endptr {value : Bool → ℕ → ℤ × Bool} {r : StrtoRet}
    (h : Conforms value base nptr r) : r.endptr = numeralEnd base nptr := by
  obtain ⟨hsome, hnone⟩ := conforms_iff.mp h
  unfold numeralEnd
  cases hlongest : longest base nptr with
  | none => rw [hnone hlongest]
  | some x => exact (hsome x.1 x.2 hlongest).1

theorem strtol_endptr (nptr : List Ascii) (base : ℕ) : (strtol nptr base).endptr =
    if (strto LONG_MAX nptr base).2.saw_a_digit then (strto LONG_MAX nptr base).2.nptr
    else nptr := by
  unfold strtol
  dsimp only
  cases (strto LONG_MAX nptr base).2.saw_a_digit
  · rfl
  · cases (strto LONG_MAX nptr base).2.overflow
    · rfl
    · rfl

theorem strtoul_endptr (nptr : List Ascii) (base : ℕ) : (strtoul nptr base).endptr =
    if (strto ULONG_MAX nptr base).2.saw_a_digit then (strto ULONG_MAX nptr base).2.nptr
    else nptr := by
  unfold strtoul
  dsimp only
  cases (strto ULONG_MAX nptr base).2.saw_a_digit
  · rfl
  · cases (strto ULONG_MAX nptr base).2.overflow
    · rfl
    · rfl

theorem strtol_conforms (hbase : IsBase base) (h : Regular base nptr) :
    Conforms longOf base nptr (strtol nptr base) ↔ ∀ n rest, longest base nptr = some (n, rest) →
      n.negative → numeral n.radix n.digits ≠ 2 ^ 31 := by
  obtain ⟨hnone, hsome⟩ := strto_regular hbase h (by decide : 0 ≤ LONG_MAX)
  rw [conforms_iff]
  cases hlongest : longest base nptr with
  | none =>
    have hsaw := hnone hlongest
    have hret : strtol nptr base = ⟨0, nptr, false⟩ := by
      unfold strtol
      dsimp only
      rw [hsaw]
      rfl
    rw [hret]
    simp
  | some x =>
    obtain ⟨n, rest⟩ := x
    obtain ⟨hneg, hsaw, hnptr, hover, hresult⟩ := hsome n rest hlongest
    have hend : (strtol nptr base).endptr = rest := by
      rw [strtol_endptr, hsaw, if_pos rfl, hnptr]
    have hvalue : ((strtol nptr base).value, (strtol nptr base).erange) =
        longOf n.negative (numeral n.radix n.digits) ↔
          (n.negative → numeral n.radix n.digits ≠ 2 ^ 31) := by
      unfold strtol
      dsimp only
      rw [hsaw, hneg]
      generalize numeral n.radix n.digits = v at hover hresult ⊢
      generalize (strto LONG_MAX nptr base).2 = s at hover hresult ⊢
      unfold longOf LONG_MAX LONG_MIN
      unfold LONG_MAX at hover
      cases hov : s.overflow with
      | true =>
        have hv := hover.mp hov
        cases n.negative with
        | true =>
          -- below the least long, or it
          simp only [Bool.not_true, Bool.false_eq_true, if_false, if_true, true_imp_iff]
          rw [if_neg (by omega)]
          split_ifs with hlt
          · simp only [true_iff]
            omega
          · simp only [Prod.mk.injEq, Bool.true_eq_false, and_false, false_iff, not_not]
            omega
        | false =>
          simp only [Bool.not_true, Bool.false_eq_true, if_false, if_true, false_imp_iff, iff_true]
          rw [if_pos (by omega)]
      | false =>
        have hv : ¬(2147483647 : ℤ) < v := by
          rw [← hover, hov]
          simp
        rw [hresult hov]
        cases n.negative with
        | true =>
          simp only [Bool.not_true, Bool.false_eq_true, if_false, if_true, true_imp_iff]
          rw [if_neg (by omega), if_neg (by omega), zero_sub]
          simp only [true_iff]
          omega
        | false =>
          simp only [Bool.not_true, Bool.false_eq_true, if_false, false_imp_iff, iff_true]
          rw [if_neg (by omega), if_neg (by omega)]
    constructor
    · intro hconf n' rest' heq
      obtain ⟨rfl, rfl⟩ := Prod.mk.inj (Option.some.inj heq)
      exact hvalue.mp (hconf.1 _ _ rfl).2
    · intro hrange
      refine ⟨fun n' rest' heq => ?_, fun heq => absurd heq (Option.some_ne_none _)⟩
      obtain ⟨rfl, rfl⟩ := Prod.mk.inj (Option.some.inj heq)
      exact ⟨hend, hvalue.mpr (hrange _ _ rfl)⟩

theorem strtoul_conforms (hbase : IsBase base) (h : Regular base nptr) :
    Conforms ulongOf base nptr (strtoul nptr base) := by
  obtain ⟨hnone, hsome⟩ := strto_regular hbase h (by decide : 0 ≤ ULONG_MAX)
  rw [conforms_iff]
  constructor
  · intro n rest hlongest
    obtain ⟨hneg, hsaw, hnptr, hover, hresult⟩ := hsome n rest hlongest
    refine ⟨by rw [strtoul_endptr, hsaw, if_pos rfl, hnptr], ?_⟩
    unfold strtoul ulongOf
    dsimp only
    rw [hsaw, hneg]
    cases hov : (strto ULONG_MAX nptr base).2.overflow with
    | true =>
      rw [if_pos (hover.mp hov)]
      rfl
    | false =>
      have hv : ¬ULONG_MAX < numeral n.radix n.digits := by
        rw [← hover, hov]
        simp
      rw [hresult hov, if_neg hv, zero_sub]
      rfl
  · intro hlongest
    unfold strtoul
    dsimp only
    rw [hnone hlongest]
    rfl

/-- The two functions convert the longest numeral that a string begins with exactly when the string
is regular, but `strtol` takes the least long to be out of range. -/
theorem strtol_grammar (base : ℕ) (nptr : List Ascii) (hbase : IsBase base) :
    (Conforms longOf base nptr (strtol nptr base) ↔
      Regular base nptr ∧ ∀ n rest, IsLongest base nptr n rest → n.negative →
        numeral n.radix n.digits ≠ 2 ^ 31) ∧
    (Conforms ulongOf base nptr (strtoul nptr base) ↔ Regular base nptr) := by
  constructor
  · simp only [← longest_spec]
    by_cases h : Regular base nptr
    · rw [strtol_conforms hbase h]
      exact (and_iff_right h).symm
    · refine iff_of_false (fun hconf => ?_) fun hreg => h hreg.1
      refine strto_irregular hbase h (by decide : 0 ≤ LONG_MAX) ?_
      rw [← hconf.endptr, strtol_endptr]
  · refine ⟨fun hconf => ?_, strtoul_conforms hbase⟩
    by_contra h
    refine strto_irregular hbase h (by decide : 0 ≤ ULONG_MAX) ?_
    rw [← hconf.endptr, strtoul_endptr]

/-- `-0x1f;` in base 0. -/
theorem strtol_grammar_hex :
    (strtol [MINUS, ZERO, LOWER_X, 49, 102, 59] 0).value = -31 ∧
    (Conforms longOf 0 [MINUS, ZERO, LOWER_X, 49, 102, 59]
        (strtol [MINUS, ZERO, LOWER_X, 49, 102, 59] 0) ↔
      Regular 0 [MINUS, ZERO, LOWER_X, 49, 102, 59] ∧
        ∀ n rest, IsLongest 0 [MINUS, ZERO, LOWER_X, 49, 102, 59] n rest → n.negative →
          numeral n.radix n.digits ≠ 2 ^ 31) :=
  ⟨by decide, (strtol_grammar 0 _ (Or.inl rfl)).1⟩

/-- A zero by itself is no number in base 0, and `5[` is 54 in base 10. -/
theorem strtol_deviates : ¬Conforms longOf 0 [ZERO] (strtol [ZERO] 0) ∧
    (strtol [53, 91] 10).value = 54 ∧ ¬Conforms longOf 10 [53, 91] (strtol [53, 91] 10) := by
  have hzero : longest 0 [ZERO] = some (⟨[], [], [], [ZERO], 8⟩, []) := rfl
  have hbracket : longest 10 [53, 91] = some (⟨[], [], [], [53], 10⟩, [91]) := rfl
  refine ⟨fun h => ?_, by decide, fun h => ?_⟩
  · exact absurd ((conforms_iff.mp h).1 _ _ hzero).1 (by decide)
  · exact absurd ((conforms_iff.mp h).1 _ _ hbracket).1 (by decide)

end Minix.Ansi
