import Mathlib.Data.Fintype.Basic
import Mathlib.Data.List.TakeWhile
import Mathlib.Tactic.Linarith
import Minix.Lib.Indices

/-!
# Numerals

What a string says about a number: white space, a sign, the mark of hexadecimal, and digits of a
base (`Numeral.Form`). Of the numerals that a string begins with `longest` finds the longest, and
that is the only one of its length (`longest_spec`).

A string is the list of what a pointer to it may be moved over, and a pointer into it is a tail of
the list. The null character ends a numeral, as it is of no kind that one is made of.
-/

namespace Minix.Ansi

/-- The characters of ASCII. -/
abbrev Ascii := Fin 128

/-- The classes of `ctype.h`, on ASCII. -/
def isspace (c : Ascii) : Bool := (9 ≤ c.val && c.val ≤ 13) || c.val = 32

def isdigit (c : Ascii) : Bool := 48 ≤ c.val && c.val ≤ 57

def isupper (c : Ascii) : Bool := 65 ≤ c.val && c.val ≤ 90

def islower (c : Ascii) : Bool := 97 ≤ c.val && c.val ≤ 122

def PLUS : Ascii := 43
def MINUS : Ascii := 45
def ZERO : Ascii := 48
def UPPER_X : Ascii := 88
def LOWER_X : Ascii := 120

/-- What a digit stands for, a letter in either case. -/
def digitVal (c : Ascii) : Option ℕ :=
  if isdigit c then some (c.val - 48)
  else if isupper c then some (c.val - 55)
  else if islower c then some (c.val - 87)
  else none

/-- The digits of a base. -/
def isDigitOf (radix : ℕ) (c : Ascii) : Bool := (digitVal c).any (· < radix)

/-- What digits stand for. -/
def numeral (radix : ℕ) (ds : List Ascii) : ℕ :=
  ds.foldl (fun n c => n * radix + (digitVal c).getD 0) 0

/-- The mark of hexadecimal. -/
def IsHexMark (lead : List Ascii) : Prop := lead = [ZERO, LOWER_X] ∨ lead = [ZERO, UPPER_X]

/-- The parts of a numeral, and the base of its digits. -/
structure Numeral where
  space : List Ascii
  sign : List Ascii
  lead : List Ascii
  digits : List Ascii
  radix : ℕ

/-- What a numeral looks like. -/
def Numeral.text (n : Numeral) : List Ascii := n.space ++ (n.sign ++ (n.lead ++ n.digits))

def Numeral.negative (n : Numeral) : Bool := n.sign = [MINUS]

/-- Base 0 takes the base from the beginning of a numeral; hexadecimal may have its mark. -/
def LeadFits (base radix : ℕ) (lead digits : List Ascii) : Prop :=
  if base = 0 then
    radix = 16 ∧ IsHexMark lead ∨
    radix = 8 ∧ lead = [] ∧ digits.head? = some ZERO ∨
    radix = 10 ∧ lead = [] ∧ digits.head? ≠ some ZERO
  else radix = base ∧ (lead = [] ∨ base = 16 ∧ IsHexMark lead)

/-- A numeral for a base. -/
structure Numeral.Form (base : ℕ) (n : Numeral) : Prop where
  space : ∀ c ∈ n.space, isspace c
  sign : n.sign = [] ∨ n.sign = [PLUS] ∨ n.sign = [MINUS]
  lead : LeadFits base n.radix n.lead n.digits
  nonempty : n.digits ≠ []
  digits : ∀ c ∈ n.digits, isDigitOf n.radix c

/-- A string begins with a numeral, and with no longer one. -/
structure IsLongest (base : ℕ) (nptr : List Ascii) (n : Numeral) (rest : List Ascii) : Prop where
  form : n.Form base
  text : nptr = n.text ++ rest
  longest : ∀ n' rest', Numeral.Form base n' → nptr = n'.text ++ rest' →
    n'.text.length ≤ n.text.length

/-! ## The longest numeral -/

/-- White space is skipped. -/
def skipSpace (nptr : List Ascii) : List Ascii := nptr.dropWhile isspace

/-- A sign is skipped. -/
def skipSign : List Ascii → List Ascii × List Ascii
  | c :: p => if c = PLUS ∨ c = MINUS then ([c], p) else ([], c :: p)
  | [] => ([], [])

/-- What comes behind the mark of hexadecimal, where a digit does. -/
def hexTail : List Ascii → Option (List Ascii)
  | c :: x :: p =>
    if c = ZERO ∧ (x = LOWER_X ∨ x = UPPER_X) ∧ (p.head?.any (isDigitOf 16)) then some p else none
  | _ => none

/-- The base of a numeral, its mark, and where its digits begin. -/
def findLead (base : ℕ) (p : List Ascii) : ℕ × List Ascii × List Ascii :=
  if base = 0 ∨ base = 16 then
    match hexTail p with
    | some r => (16, p.take 2, r)
    | none => if base = 16 then (16, [], p) else if p.head? = some ZERO then (8, [], p) else (10, [], p)
  else (base, [], p)

/-- The longest numeral that a string begins with, and what is behind it. -/
def longest (base : ℕ) (nptr : List Ascii) : Option (Numeral × List Ascii) :=
  let space := nptr.takeWhile isspace
  let (sign, p) := skipSign (skipSpace nptr)
  let (radix, lead, q) := findLead base p
  let digits := q.takeWhile (isDigitOf radix)
  if digits = [] then none
  else some (⟨space, sign, lead, digits, radix⟩, q.dropWhile (isDigitOf radix))

/-! ## The parts are found -/

variable {base radix : ℕ} {n n' : Numeral} {rest rest' nptr p ds : List Ascii} {c : Ascii}

/-- A digit is neither white space nor a sign. -/
theorem digit_apart (c : Ascii) : (digitVal c).isSome → ¬isspace c ∧ c ≠ PLUS ∧ c ≠ MINUS := by
  revert c
  decide

theorem isDigitOf_isSome (h : isDigitOf radix c) : (digitVal c).isSome := by
  unfold isDigitOf at h
  cases hc : digitVal c with
  | none =>
    rw [hc] at h
    exact absurd h (by simp)
  | some v => rfl

/-- The mark of hexadecimal is no part of digits: an X is worth 33. -/
theorem not_isDigitOf_x (h : radix ≤ 33) : isDigitOf radix LOWER_X = false ∧
    isDigitOf radix UPPER_X = false := by
  have hl : digitVal LOWER_X = some 33 := by decide
  have hu : digitVal UPPER_X = some 33 := by decide
  unfold isDigitOf
  rw [hl, hu]
  simp only [Option.any_some, decide_eq_false_iff_not, not_lt]
  exact ⟨h, h⟩

/-- The mark and the digits begin with what is neither white space nor a sign. -/
theorem Numeral.Form.body_cons (h : n.Form base) : ∃ c body,
    n.lead ++ n.digits = c :: body ∧ ¬isspace c ∧ c ≠ PLUS ∧ c ≠ MINUS := by
  have hmark : ∀ lead, IsHexMark lead → ∃ c body, lead = c :: body ∧ ¬isspace c ∧ c ≠ PLUS ∧
      c ≠ MINUS := by
    rintro lead (rfl | rfl)
    · exact ⟨ZERO, _, rfl, by decide⟩
    · exact ⟨ZERO, _, rfl, by decide⟩
  have hdigits : ∃ c body, n.digits = c :: body ∧ ¬isspace c ∧ c ≠ PLUS ∧ c ≠ MINUS := by
    obtain ⟨c, body, hbody⟩ := List.exists_cons_of_ne_nil h.nonempty
    have hc : isDigitOf n.radix c := h.digits c (by rw [hbody]; exact List.mem_cons_self)
    exact ⟨c, body, hbody, digit_apart c (isDigitOf_isSome hc)⟩
  have hlead : n.lead = [] ∨ IsHexMark n.lead := by
    have hfits := h.lead
    unfold LeadFits at hfits
    split_ifs at hfits
    · rcases hfits with ⟨-, hm⟩ | ⟨-, hnil, -⟩ | ⟨-, hnil, -⟩
      · exact Or.inr hm
      · exact Or.inl hnil
      · exact Or.inl hnil
    · rcases hfits.2 with hnil | ⟨-, hm⟩
      · exact Or.inl hnil
      · exact Or.inr hm
  rcases hlead with hnil | hm
  · rw [hnil]
    exact hdigits
  · obtain ⟨c, body, hbody, hc⟩ := hmark _ hm
    exact ⟨c, body ++ n.digits, by rw [hbody]; rfl, hc⟩

/-- White space, sign and the rest of a numeral are found where they are. -/
theorem Numeral.Form.split (h : n.Form base) (rest : List Ascii) :
    (n.text ++ rest).takeWhile isspace = n.space ∧
      skipSign (skipSpace (n.text ++ rest)) = (n.sign, n.lead ++ (n.digits ++ rest)) := by
  obtain ⟨c, body, hbody, hspace, hplus, hminus⟩ := h.body_cons
  -- what is behind the white space
  have hbehind : ∃ d q, n.sign ++ (n.lead ++ n.digits) ++ rest = d :: q ∧ isspace d = false ∧
      skipSign (d :: q) = (n.sign, n.lead ++ (n.digits ++ rest)) := by
    rw [← List.append_assoc n.lead]
    rcases h.sign with hs | hs | hs
    · rw [hs, hbody]
      refine ⟨c, body ++ rest, rfl, Bool.eq_false_iff.mpr hspace, ?_⟩
      exact if_neg (not_or.mpr ⟨hplus, hminus⟩)
    · rw [hs]
      exact ⟨PLUS, n.lead ++ n.digits ++ rest, rfl, by decide, rfl⟩
    · rw [hs]
      exact ⟨MINUS, n.lead ++ n.digits ++ rest, rfl, by decide, rfl⟩
  obtain ⟨d, q, heq, hd, hskip⟩ := hbehind
  have htext : n.text ++ rest = n.space ++ (d :: q) := by
    unfold Numeral.text
    rw [List.append_assoc, heq]
  rw [htext]
  constructor
  · rw [List.takeWhile_append_of_pos h.space, List.takeWhile_cons_of_neg (by rw [hd]; simp),
      List.append_nil]
  · unfold skipSpace
    rw [List.dropWhile_append_of_pos h.space, List.dropWhile_cons_of_neg (by rw [hd]; simp)]
    exact hskip

/-- The mark of hexadecimal is found in front of a digit. -/
theorem hexTail_mark {lead : List Ascii} (hm : IsHexMark lead) (hc : isDigitOf 16 c) :
    hexTail (lead ++ c :: rest) = some (c :: rest) := by
  rcases hm with rfl | rfl
  · exact if_pos ⟨rfl, Or.inl rfl, hc⟩
  · exact if_pos ⟨rfl, Or.inr rfl, hc⟩

/-- What is found to be the mark of hexadecimal. -/
theorem hexTail_some {r : List Ascii} (h : hexTail p = some r) :
    ∃ lead c q, IsHexMark lead ∧ r = c :: q ∧ isDigitOf 16 c ∧ p = lead ++ r := by
  unfold hexTail at h
  split at h
  case h_2 => exact absurd h (by simp)
  case h_1 c x q =>
    split_ifs at h with hif
    obtain rfl := Option.some.inj h
    obtain ⟨rfl, hx, hany⟩ := hif
    cases q with
    | nil => exact absurd hany (by simp)
    | cons d q =>
      rcases hx with rfl | rfl
      · exact ⟨_, d, q, Or.inl rfl, rfl, hany, rfl⟩
      · exact ⟨_, d, q, Or.inr rfl, rfl, hany, rfl⟩

/-- Behind a zero the mark of hexadecimal ends the digits of a smaller base. -/
theorem digits_before_mark {lead r : List Ascii} (hm : IsHexMark lead) (hradix : radix ≤ 33)
    (hds : ∀ c ∈ ds, isDigitOf radix c) (h : ds ++ rest = lead ++ r) : ds.length ≤ 1 := by
  rcases ds with _ | ⟨c, _ | ⟨x, ds⟩⟩
  · exact Nat.zero_le 1
  · exact le_refl 1
  · have hx : isDigitOf radix x = true := hds x (by simp)
    obtain ⟨hl, hu⟩ := not_isDigitOf_x hradix
    rcases hm with rfl | rfl
    · obtain rfl : x = LOWER_X := (List.cons.inj (List.cons.inj h).2).1
      exact absurd hx (by rw [hl]; simp)
    · obtain rfl : x = UPPER_X := (List.cons.inj (List.cons.inj h).2).1
      exact absurd hx (by rw [hu]; simp)

/-- The digits of a string are at least those that it is known to begin with. -/
theorem le_takeWhile (rest : List Ascii) (hne : ds ≠ []) (hds : ∀ c ∈ ds, isDigitOf radix c) :
    (ds ++ rest).takeWhile (isDigitOf radix) ≠ [] ∧
    ds.length ≤ ((ds ++ rest).takeWhile (isDigitOf radix)).length ∧
      (ds.length = ((ds ++ rest).takeWhile (isDigitOf radix)).length →
        ds = (ds ++ rest).takeWhile (isDigitOf radix)) := by
  rw [List.takeWhile_append_of_pos hds, List.length_append]
  refine ⟨List.append_ne_nil_of_left_ne_nil hne _, Nat.le_add_right _ _, fun heq => ?_⟩
  have hnil : rest.takeWhile (isDigitOf radix) = [] := by
    rw [← List.length_eq_zero_iff]
    omega
  rw [hnil, List.append_nil]

theorem IsHexMark.length {lead : List Ascii} (hm : IsHexMark lead) : lead.length = 2 := by
  rcases hm with rfl | rfl
  · rfl
  · rfl

/-- What is found where there is a mark of hexadecimal in front of a digit. -/
theorem findLead_mark {lead : List Ascii} (hbase : base = 0 ∨ base = 16) (hm : IsHexMark lead)
    (hc : isDigitOf 16 c) : findLead base (lead ++ c :: rest) = (16, lead, c :: rest) := by
  unfold findLead
  rw [if_pos hbase, hexTail_mark hm hc, List.take_left' hm.length]

/-- What is found where there is none. -/
theorem findLead_plain (h : base = 0 ∨ base = 16 → hexTail p = none) :
    findLead base p =
      (if base = 0 then if p.head? = some ZERO then 8 else 10 else base, [], p) := by
  unfold findLead
  by_cases hbase : base = 0 ∨ base = 16
  · rw [if_pos hbase, h hbase]
    dsimp only
    by_cases h0 : base = 0
    · rw [if_neg (by omega), if_pos h0]
      split_ifs
      · rfl
      · rfl
    · rw [if_pos (hbase.resolve_left h0), if_neg h0, hbase.resolve_left h0]
  · rw [if_neg hbase, if_neg fun h0 => hbase (Or.inl h0)]

/-- The mark and the digits that a string begins with are those that are found, or are shorter. -/
theorem findLead_le {lead : List Ascii} (rest : List Ascii) (hfits : LeadFits base radix lead ds)
    (hne : ds ≠ []) (hds : ∀ c ∈ ds, isDigitOf radix c) :
    let x := findLead base (lead ++ (ds ++ rest))
    let digits := x.2.2.takeWhile (isDigitOf x.1)
    digits ≠ [] ∧ (lead ++ ds).length ≤ (x.2.1 ++ digits).length ∧
      ((lead ++ ds).length = (x.2.1 ++ digits).length →
        radix = x.1 ∧ lead = x.2.1 ∧ ds = digits) := by
  -- Hexadecimal with its mark, or digits alone.
  have hcases : (base = 0 ∨ base = 16) ∧ radix = 16 ∧ IsHexMark lead ∨
      lead = [] ∧ (base = 0 ∨ base = 16 → radix ≤ 33) ∧
        radix = if base = 0 then if (ds ++ rest).head? = some ZERO then 8 else 10 else base := by
    have hhead : (ds ++ rest).head? = ds.head? := List.head?_append_of_ne_nil _ hne
    unfold LeadFits at hfits
    split_ifs at hfits with h0
    · rw [if_pos h0, hhead]
      rcases hfits with ⟨hr, hm⟩ | ⟨hr, hnil, hzero⟩ | ⟨hr, hnil, hzero⟩
      · exact Or.inl ⟨Or.inl h0, hr, hm⟩
      · exact Or.inr ⟨hnil, fun _ => by omega, by rw [if_pos hzero, hr]⟩
      · exact Or.inr ⟨hnil, fun _ => by omega, by rw [if_neg hzero, hr]⟩
    · rcases hfits with ⟨hr, hnil | ⟨h16, hm⟩⟩
      · exact Or.inr ⟨hnil, fun hb => by omega, by rw [if_neg h0, hr]⟩
      · exact Or.inl ⟨Or.inr h16, hr.trans h16, hm⟩
  rcases hcases with ⟨hbase, rfl, hm⟩ | ⟨rfl, hle, hradix⟩
  · obtain ⟨c, body, rfl⟩ := List.exists_cons_of_ne_nil hne
    rw [List.cons_append, findLead_mark hbase hm (hds c List.mem_cons_self)]
    obtain ⟨htake, hlen, heq⟩ := le_takeWhile rest hne hds
    rw [List.cons_append] at htake hlen heq
    dsimp only
    rw [List.length_append, List.length_append]
    exact ⟨htake, Nat.add_le_add_left hlen _, fun h => ⟨rfl, rfl, heq (Nat.add_left_cancel h)⟩⟩
  · rw [List.nil_append, List.nil_append]
    by_cases hmark : (base = 0 ∨ base = 16) ∧ (hexTail (ds ++ rest)).isSome
    · -- the digits are a zero
      obtain ⟨hbase, hsome⟩ := hmark
      obtain ⟨r, hr⟩ := Option.isSome_iff_exists.mp hsome
      obtain ⟨lead, c, q, hm, rfl, hc, hp⟩ := hexTail_some hr
      have hshort := digits_before_mark hm (hle hbase) hds hp
      rw [hp, findLead_mark hbase hm hc]
      dsimp only
      rw [List.takeWhile_cons_of_pos hc, List.length_append, hm.length, List.length_cons]
      exact ⟨List.cons_ne_nil _ _, by omega, fun h => by omega⟩
    · have hnone : base = 0 ∨ base = 16 → hexTail (ds ++ rest) = none := by
        intro hbase
        rw [← Option.not_isSome_iff_eq_none]
        exact fun hsome => hmark ⟨hbase, hsome⟩
      rw [findLead_plain hnone, ← hradix]
      dsimp only
      rw [List.nil_append]
      obtain ⟨htake, hlen, heq⟩ := le_takeWhile rest hne hds
      exact ⟨htake, hlen, fun h => ⟨rfl, rfl, heq h⟩⟩

/-- The mark that is found is in the string, and fits what follows. -/
theorem findLead_spec (base : ℕ) (p : List Ascii) :
    let x := findLead base p
    p = x.2.1 ++ x.2.2 ∧ (x.2.2.takeWhile (isDigitOf x.1) ≠ [] →
      LeadFits base x.1 x.2.1 (x.2.2.takeWhile (isDigitOf x.1))) := by
  intro x
  by_cases hmark : (base = 0 ∨ base = 16) ∧ (hexTail p).isSome
  · obtain ⟨hbase, hsome⟩ := hmark
    obtain ⟨r, hr⟩ := Option.isSome_iff_exists.mp hsome
    obtain ⟨lead, c, q, hm, rfl, hc, rfl⟩ := hexTail_some hr
    have hx : x = (16, lead, c :: q) := findLead_mark hbase hm hc
    rw [hx]
    refine ⟨rfl, fun _ => ?_⟩
    unfold LeadFits
    rcases hbase with rfl | rfl
    · exact Or.inl ⟨rfl, hm⟩
    · exact ⟨rfl, Or.inr ⟨rfl, hm⟩⟩
  · have hx : x = (if base = 0 then if p.head? = some ZERO then 8 else 10 else base, [], p) := by
      refine findLead_plain fun hbase => ?_
      rw [← Option.not_isSome_iff_eq_none]
      exact fun hsome => hmark ⟨hbase, hsome⟩
    rw [hx]
    refine ⟨rfl, fun hne => ?_⟩
    -- the digits have the same head as the string
    have hhead : ∀ radix, p.takeWhile (isDigitOf radix) ≠ [] →
        (p.takeWhile (isDigitOf radix)).head? = p.head? := by
      intro radix hne
      conv_rhs => rw [← List.takeWhile_append_dropWhile (p := isDigitOf radix) (l := p)]
      rw [List.head?_append_of_ne_nil _ hne]
    have hd := hhead _ hne
    dsimp only at hd hne ⊢
    unfold LeadFits
    split_ifs at hd hne ⊢ with h0 hzero
    · exact Or.inr (Or.inl ⟨rfl, rfl, by rw [hd, hzero]⟩)
    · exact Or.inr (Or.inr ⟨rfl, rfl, by rw [hd]; exact hzero⟩)
    · exact ⟨rfl, Or.inl rfl⟩

/-- What is skipped for a sign. -/
theorem skipSign_spec (p : List Ascii) : p = (skipSign p).1 ++ (skipSign p).2 ∧
    ((skipSign p).1 = [] ∨ (skipSign p).1 = [PLUS] ∨ (skipSign p).1 = [MINUS]) := by
  cases p with
  | nil => exact ⟨rfl, Or.inl rfl⟩
  | cons c p =>
    dsimp only [skipSign]
    split_ifs with hc
    · rcases hc with rfl | rfl
      · exact ⟨rfl, Or.inr (Or.inl rfl)⟩
      · exact ⟨rfl, Or.inr (Or.inr rfl)⟩
    · exact ⟨rfl, Or.inl rfl⟩

/-- What is found is a numeral that the string begins with. -/
theorem longest_form (h : longest base nptr = some (n, rest)) :
    n.Form base ∧ nptr = n.text ++ rest := by
  unfold longest at h
  dsimp only at h
  split_ifs at h with hne
  obtain ⟨hn, hrest⟩ := Prod.mk.inj (Option.some.inj h)
  obtain ⟨hsign, hform⟩ := skipSign_spec (skipSpace nptr)
  obtain ⟨hlead, hfits⟩ := findLead_spec base (skipSign (skipSpace nptr)).2
  constructor
  · rw [← hn]
    exact ⟨fun c hc => List.mem_takeWhile_imp hc, hform, hfits hne, hne,
      fun c hc => List.mem_takeWhile_imp hc⟩
  · rw [← hn, ← hrest]
    unfold Numeral.text
    dsimp only
    rw [List.append_assoc, List.append_assoc, List.append_assoc, List.takeWhile_append_dropWhile,
      ← hlead, ← hsign]
    exact (List.takeWhile_append_dropWhile).symm

/-- A numeral that a string begins with is the one that is found, or is shorter. -/
theorem longest_le (h : n.Form base) (hnptr : nptr = n.text ++ rest) :
    ∃ n' rest', longest base nptr = some (n', rest') ∧ n.text.length ≤ n'.text.length ∧
      (n.text.length = n'.text.length → n = n') := by
  obtain ⟨htake, hskip⟩ := h.split rest
  obtain ⟨hne, hle, heq⟩ := findLead_le rest h.lead h.nonempty h.digits
  set x := findLead base (n.lead ++ (n.digits ++ rest)) with hx
  have hfound : longest base nptr =
      some (⟨n.space, n.sign, x.2.1, x.2.2.takeWhile (isDigitOf x.1), x.1⟩,
        x.2.2.dropWhile (isDigitOf x.1)) := by
    unfold longest
    dsimp only
    rw [hnptr, htake, hskip]
    exact if_neg hne
  refine ⟨_, _, hfound, ?_, ?_⟩
  · unfold Numeral.text
    simp only [List.length_append] at hle ⊢
    omega
  · intro hlen
    unfold Numeral.text at hlen
    simp only [List.length_append] at hlen heq
    obtain ⟨hradix, hlead, hdigits⟩ := heq (by omega)
    rw [← hlead, ← hdigits, ← hradix]

/-- What is found is the longest numeral that the string begins with. -/
theorem longest_spec : longest base nptr = some (n, rest) ↔ IsLongest base nptr n rest := by
  constructor
  · intro h
    obtain ⟨hform, htext⟩ := longest_form h
    refine ⟨hform, htext, fun n' rest' hform' htext' => ?_⟩
    obtain ⟨n'', rest'', hfound, hle, -⟩ := longest_le hform' htext'
    rw [h] at hfound
    obtain ⟨rfl, -⟩ := Prod.mk.inj (Option.some.inj hfound)
    exact hle
  · intro h
    obtain ⟨n', rest', hfound, hle, heq⟩ := longest_le h.form h.text
    obtain ⟨hform', htext'⟩ := longest_form hfound
    obtain rfl := heq (le_antisymm hle (h.longest n' rest' hform' htext'))
    obtain rfl := List.append_cancel_left (h.text.symm.trans htext')
    exact hfound

/-- Nothing is found in a string that begins with no numeral. -/
theorem longest_eq_none : longest base nptr = none ↔
    ∀ n rest, Numeral.Form base n → nptr ≠ n.text ++ rest := by
  constructor
  · intro h n rest hform htext
    obtain ⟨n', rest', hfound, -⟩ := longest_le hform htext
    rw [h] at hfound
    exact absurd hfound (by simp)
  · intro h
    rw [Option.eq_none_iff_forall_ne_some]
    rintro ⟨n, rest⟩ hfound
    obtain ⟨hform, htext⟩ := longest_form hfound
    exact h n rest hform htext

end Minix.Ansi
