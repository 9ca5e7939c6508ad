import Mathlib.Tactic.Ring
import Minix.Ansi.Numerals
import Minix.Lib.Calendar
import Minix.Lib.Words

/-!
# Local time

`gmtime`, `localtime`, `mktime`, `tzset` and what they call, from `lib/ansi/ctime.c`. `localtime`
asks for daylight savings time by the standard time, and `mktime` by the local one. The two differ
in the last hour, where the local time is in the next day (`LastHour`); otherwise `mktime` leads
back, and what `localtime` returns is always a date (`calendar_round_trip`).
-/

namespace Minix.Ansi

open Lib

def SECS_PER_MIN : ℤ := 60
def SECS_PER_HOUR : ℤ := 3600
def SECS_PER_DAY : ℤ := 86400
def SECS_PER_YEAR : ℤ := 31536000
def SECS_PER_LEAPYEAR : ℤ := 31622400

def COLON : Ascii := 58

def isalpha (c : Ascii) : Bool := isupper c || islower c

/-- The fields of a broken-down time. -/
structure Tm where
  tm_sec : ℤ
  tm_min : ℤ
  tm_hour : ℤ
  tm_mday : ℤ
  tm_mon : ℕ
  tm_year : ℤ
  tm_wday : ℤ
  tm_yday : ℤ
  tm_isdst : ℤ

/-- The number of seconds west of GMT, and whether there is daylight savings time, which may be
unknown. -/
structure Zone where
  timezone : ℤ
  dst : ℤ
  deriving DecidableEq

/-- As the program is loaded. -/
def initialZone : Zone := ⟨-1, -1⟩

/-- What digits say in an `int`. -/
def zoneDigits (s : List Ascii) : ℤ :=
  (s.takeWhile isdigit).foldl (fun x c => int16 (10 * x + (c.val - 48))) 0

/-- `tzoffset`, with what it stores in `hasdst`. -/
def tzoffset (s : Option (List Ascii)) : Zone :=
  match s with
  | none | some [] => ⟨0, -1⟩
  | some s =>
    let s := s.dropWhile isalpha
    let sgn : ℤ := if s.headD 0 = MINUS then -1 else 1
    let s := if s.headD 0 = MINUS then s.tail else s
    let off := zoneDigits s * SECS_PER_HOUR
    let s := s.dropWhile isdigit
    let r := if s.headD 0 = COLON then
        (off + zoneDigits s.tail * SECS_PER_MIN, s.tail.dropWhile isdigit)
      else (off, s)
    ⟨sgn * r.1, if isalpha (r.2.headD 0) then 1 else 0⟩

/-- Set the time zone if that has not been done. -/
def setZone (TZ : Option (List Ascii)) (z : Zone) : Zone :=
  if z.timezone = -1 then tzoffset TZ else z

/-- The loop of `gmtime` over the years. Each turn takes a year off. -/
def peelYears : ℕ → ℤ → ℤ → ℤ × ℤ
  | 0, time, year => (time, year)
  | n + 1, time, year =>
    if time < SECS_PER_YEAR then (time, year)
    else if year % 4 = 0 then
      if time < SECS_PER_LEAPYEAR then (time, year)
      else peelYears n (time - SECS_PER_LEAPYEAR) (year + 1)
    else peelYears n (time - SECS_PER_YEAR) (year + 1)

/-- The loop of `gmtime` over the months. -/
def peelMonths : List ℤ → ℤ → ℕ → ℕ × ℤ
  | [], mday, i => (i, mday)
  | days :: days_per_mth, mday, i =>
    if mday ≥ days then peelMonths days_per_mth (mday - days) (i + 1) else (i, mday)

/-- The number of days that February gets. -/
def febDays (year : ℤ) : ℤ := if year % 4 ≠ 0 then 28 else 29

def gmtime (time : ℤ) : Option Tm :=
  if time < 0 then none
  else
    let r := peelYears (time / SECS_PER_YEAR + 1).toNat time 70
    let d := peelMonths (monthsWith (febDays r.2)) (r.1 / SECS_PER_DAY) 0
    let h := r.1 % SECS_PER_DAY
    some {
      tm_sec := h % SECS_PER_HOUR % SECS_PER_MIN
      tm_min := h % SECS_PER_HOUR / SECS_PER_MIN
      tm_hour := h / SECS_PER_HOUR
      tm_mday := d.2 + 1
      tm_mon := d.1
      tm_year := r.2
      tm_wday := (time / SECS_PER_DAY + 4) % 7
      tm_yday := r.1 / SECS_PER_DAY
      tm_isdst := 0 }

/-- Whether there is daylight savings time at a local time. -/
def indst (t : Tm) : Bool :=
  if t.tm_mon = 3 then
    (t.tm_year < 87 && t.tm_wday + 30 - t.tm_mday < 7) || t.tm_wday - t.tm_mday < 0
  else if t.tm_mon = 9 then !(t.tm_wday + 31 - t.tm_mday < 7)
  else 3 < t.tm_mon && t.tm_mon < 9

/-- One hour more, which may lead to the next day. -/
def addHour (t : Tm) : Tm :=
  let t := { t with tm_isdst := 1, tm_hour := t.tm_hour + 1 }
  if t.tm_hour > 23 then
    let t := { t with
      tm_hour := t.tm_hour - 24
      tm_wday := (t.tm_wday + 1) % 7
      tm_yday := t.tm_yday + 1
      tm_mday := t.tm_mday + 1 }
    if t.tm_mday > (monthsWith (febDays t.tm_year)).getD t.tm_mon 0 then
      { t with tm_mday := 1, tm_mon := t.tm_mon + 1 }
    else t
  else t

def localtime (TZ : Option (List Ascii)) (z : Zone) (t : ℤ) : Zone × Option Tm :=
  let z := setZone TZ z
  (z, (gmtime (long32 (t - z.timezone))).map fun stm =>
    let stm := { stm with tm_isdst := if z.dst = -1 then -1 else 0 }
    if z.dst = 1 ∧ indst stm = true then addHour stm else stm)

/-- `mktime`, whose sums are longs. -/
def mktime (TZ : Option (List Ascii)) (z : Zone) (t : Tm) : Zone × ℤ :=
  let y := t.tm_year - 70
  if y < 0 then (z, -1)
  else
    let s := SECS_PER_YEAR * y + (y + 1) / 4 * SECS_PER_DAY
    let s := ((monthsWith (if (y + 2) % 4 ≠ 0 then 28 else 29)).take t.tm_mon).foldl
      (fun s days => s + SECS_PER_DAY * days) s
    let s := s + (t.tm_mday - 1) * SECS_PER_DAY + t.tm_hour * SECS_PER_HOUR +
      t.tm_min * SECS_PER_MIN + t.tm_sec
    let z := setZone TZ z
    let s := s + z.timezone
    (z, long32 (if z.dst = 1 ∧ indst t = true then s - SECS_PER_HOUR else s))

/-! ## The broken-down time -/

/-- The fields are those of a day. -/
structure Tm.IsDay (t : Tm) (n : ℕ) (day : ℤ) : Prop where
  year : t.tm_year = 70 + n
  date : IsDate n t.tm_mon t.tm_mday
  day_eq : dayNumber n t.tm_mon t.tm_mday = day
  wday : t.tm_wday = weekday day
  yday : t.tm_yday = daysBeforeMonth n t.tm_mon + t.tm_mday - 1

/-- The fields are those of a second of a day. -/
structure Tm.IsSecond (t : Tm) (secs : ℤ) : Prop where
  hour : 0 ≤ t.tm_hour ∧ t.tm_hour < 24
  min : 0 ≤ t.tm_min ∧ t.tm_min < 60
  sec : 0 ≤ t.tm_sec ∧ t.tm_sec < 60
  secs_eq : t.tm_hour * 3600 + t.tm_min * 60 + t.tm_sec = secs

/-- A date, with a time of the day. -/
def Tm.Valid (t : Tm) : Prop := ∃ n day secs, t.IsDay n day ∧ t.IsSecond secs

variable {n j : ℕ} {day secs time mday : ℤ} {tm : Tm}

theorem febDays_eq (h : n < 130) : monthsWith (febDays (70 + n)) = monthLengths n := by
  have hleap : (70 + (n : ℤ)) % 4 ≠ 0 ↔ ¬IsLeap (1970 + n) := by
    rw [isLeap_iff h]
    omega
  simp only [monthLengths, febDays, hleap, ite_not]

/-- The loop over the years leaves the seconds of the last year. -/
theorem peelYears_spec (h0 : 0 ≤ time) (hn : time < n * SECS_PER_YEAR) (hj : j + n ≤ 130) :
    ∃ k < n, (peelYears n time (70 + j)).2 = 70 + (j + k : ℕ) ∧
      0 ≤ (peelYears n time (70 + j)).1 ∧
      (peelYears n time (70 + j)).1 < 86400 * yearLength (j + k) ∧
      time + 86400 * daysBeforeYear j =
        (peelYears n time (70 + j)).1 + 86400 * daysBeforeYear (j + k) := by
  induction n generalizing time j with
  | zero =>
    simp only [Nat.cast_zero, zero_mul] at hn
    omega
  | succ n ih =>
    have hleap : (70 + (j : ℤ)) % 4 = 0 ↔ IsLeap (1970 + j) := by
      rw [isLeap_iff (by omega)]
      omega
    have hnext : (70 : ℤ) + j + 1 = 70 + (j + 1 : ℕ) := by
      push_cast
      ring
    have hstop : time < 86400 * yearLength j → ∃ k < n + 1, (70 : ℤ) + j = 70 + (j + k : ℕ) ∧
        0 ≤ time ∧ time < 86400 * yearLength (j + k) ∧
        time + 86400 * daysBeforeYear j = time + 86400 * daysBeforeYear (j + k) :=
      fun hlt => ⟨0, Nat.succ_pos n, rfl, h0, hlt, rfl⟩
    have hyear : yearLength j = if IsLeap (1970 + j) then 366 else 365 := rfl
    have hsum := daysBeforeYear_succ j
    have hfuel : ((n + 1 : ℕ) : ℤ) * SECS_PER_YEAR = n * SECS_PER_YEAR + SECS_PER_YEAR := by
      push_cast
      ring
    rw [hfuel] at hn
    simp only [SECS_PER_YEAR] at hn
    -- A year is taken off, and the loop goes on with the next one.
    have hgo : ∀ len, len = 86400 * yearLength j → len ≤ time → ∃ k < n + 1,
        (peelYears n (time - len) (70 + j + 1)).2 = 70 + (j + k : ℕ) ∧
        0 ≤ (peelYears n (time - len) (70 + j + 1)).1 ∧
        (peelYears n (time - len) (70 + j + 1)).1 < 86400 * yearLength (j + k) ∧
        time + 86400 * daysBeforeYear j =
          (peelYears n (time - len) (70 + j + 1)).1 + 86400 * daysBeforeYear (j + k) := by
      intro len hlen hle
      have hmin : 31536000 ≤ len := by
        rw [hlen, hyear]
        split_ifs <;> omega
      obtain ⟨k, hk, hy, hpos, hlt, he⟩ := @ih (j + 1) (time - len) (by omega)
        (by simp only [SECS_PER_YEAR]; omega) (by omega)
      rw [hnext]
      refine ⟨k + 1, by omega, ?_, hpos, ?_, ?_⟩
      · rw [hy, Nat.add_right_comm, Nat.add_assoc]
      · rwa [Nat.add_right_comm, Nat.add_assoc] at hlt
      · rw [Nat.add_right_comm, Nat.add_assoc] at he
        omega
    rw [peelYears]
    by_cases hfirst : time < SECS_PER_YEAR
    · rw [if_pos hfirst]
      apply hstop
      simp only [SECS_PER_YEAR] at hfirst
      rw [hyear]
      split_ifs <;> omega
    rw [if_neg hfirst]
    simp only [SECS_PER_YEAR] at hfirst
    by_cases h4 : (70 + (j : ℤ)) % 4 = 0
    · rw [if_pos h4]
      rw [if_pos (hleap.mp h4)] at hyear
      by_cases hlast : time < SECS_PER_LEAPYEAR
      · rw [if_pos hlast]
        apply hstop
        simp only [SECS_PER_LEAPYEAR] at hlast
        omega
      · rw [if_neg hlast]
        simp only [SECS_PER_LEAPYEAR] at hlast ⊢
        exact hgo _ (by omega) (by omega)
    · rw [if_neg h4]
      rw [if_neg (hleap.not.mp h4)] at hyear
      simp only [SECS_PER_YEAR]
      exact hgo _ (by omega) (by omega)

/-- The loop over the months leaves the days of the last month. -/
theorem peelMonths_spec {ds : List ℤ} {i : ℕ} (h0 : 0 ≤ mday) (hlt : mday < ds.sum) :
    ∃ k < ds.length, (peelMonths ds mday i).1 = i + k ∧ 0 ≤ (peelMonths ds mday i).2 ∧
      (peelMonths ds mday i).2 < ds.getD k 0 ∧
      mday = (ds.take k).sum + (peelMonths ds mday i).2 := by
  induction ds generalizing mday i with
  | nil =>
    simp only [List.sum_nil] at hlt
    omega
  | cons d ds ih =>
    rw [List.sum_cons] at hlt
    rw [peelMonths]
    by_cases hd : mday ≥ d
    · rw [if_pos hd]
      obtain ⟨k, hk, hi, hpos, hin, hsum⟩ := @ih (mday - d) (i + 1) (by omega) (by omega)
      refine ⟨k + 1, Nat.succ_lt_succ hk, by omega, hpos, ?_, ?_⟩
      · simpa using hin
      · rw [List.take_succ_cons, List.sum_cons]
        omega
    · rw [if_neg hd]
      refine ⟨0, Nat.succ_pos _, rfl, h0, ?_, ?_⟩
      · simpa using hd
      · simp

/-- `gmtime` returns the date and the time of the day. -/
theorem gmtime_spec (h0 : 0 ≤ time) (ht : time < 2147483648) :
    ∃ tm n, gmtime time = some tm ∧ n < 70 ∧ tm.IsDay n (time / 86400) ∧
      tm.IsSecond (time % 86400) := by
  obtain ⟨f, hf⟩ : ∃ f : ℕ, (time / SECS_PER_YEAR + 1).toNat = f := ⟨_, rfl⟩
  have hfuel : time < f * SECS_PER_YEAR ∧ f < 70 := by
    simp only [SECS_PER_YEAR] at hf ⊢
    omega
  obtain ⟨n, hn, hyear, hpos, hlt, hsum⟩ := @peelYears_spec f 0 time h0 hfuel.1 (by omega)
  simp only [Nat.cast_zero, add_zero, zero_add] at hyear hpos hlt hsum
  have hzero : daysBeforeYear 0 = 0 := rfl
  obtain ⟨rest, hrest⟩ : ∃ rest, (peelYears f time 70).1 = rest := ⟨_, rfl⟩
  have hyears : peelYears f time 70 = (rest, 70 + (n : ℤ)) := Prod.ext hrest hyear
  rw [hrest] at hpos hlt hsum
  have hall : (monthLengths n).sum = yearLength n := daysBeforeMonth_all n
  obtain ⟨m, hm, hmon, hfirst, hlast, hdays⟩ :=
    @peelMonths_spec (rest / 86400) (monthLengths n) 0 (by omega) (by rw [hall]; omega)
  obtain ⟨d, hd⟩ : ∃ d, (peelMonths (monthLengths n) (rest / 86400) 0).2 = d := ⟨_, rfl⟩
  have hmonths : peelMonths (monthLengths n) (rest / 86400) 0 = (m, d) :=
    Prod.ext (hmon.trans (Nat.zero_add m)) hd
  rw [hd] at hfirst hlast hdays
  have hfeb : monthsWith (febDays (70 + n)) = monthLengths n := febDays_eq (by omega)
  have hlen : (monthLengths n).length = 12 := rfl
  have hgm : gmtime time = some {
      tm_sec := rest % 86400 % 3600 % 60
      tm_min := rest % 86400 % 3600 / 60
      tm_hour := rest % 86400 / 3600
      tm_mday := d + 1
      tm_mon := m
      tm_year := 70 + n
      tm_wday := weekday (time / 86400)
      tm_yday := rest / 86400
      tm_isdst := 0 } := by
    rw [gmtime, if_neg (by omega), hf, hyears]
    simp only [SECS_PER_DAY, SECS_PER_HOUR, SECS_PER_MIN, hfeb, hmonths]
    rfl
  refine ⟨_, n, hgm, by omega, ⟨rfl, ⟨hm, ?_, ?_⟩, ?_, rfl, ?_⟩, ?_⟩
  · show 1 ≤ d + 1
    omega
  · show d + 1 ≤ monthLength n m
    rw [monthLength]
    omega
  · show dayNumber n m (d + 1) = time / 86400
    rw [dayNumber, daysBeforeMonth]
    omega
  · show rest / 86400 = daysBeforeMonth n m + (d + 1) - 1
    rw [daysBeforeMonth]
    omega
  · have hsame : rest % 86400 = time % 86400 := by omega
    refine ⟨⟨?_, ?_⟩, ⟨?_, ?_⟩, ⟨?_, ?_⟩, ?_⟩ <;> simp only [hsame] <;> omega

/-- Daylight savings time is between March and November. -/
theorem indst_months (h : indst tm = true) : 3 ≤ tm.tm_mon ∧ tm.tm_mon ≤ 9 := by
  rw [indst] at h
  split_ifs at h with h3 h9
  · omega
  · omega
  · simp only [Bool.and_eq_true, decide_eq_true_eq] at h
    omega

/-- One hour later, in the same day or the next. -/
theorem addHour_spec (hn : n < 70) (hd : tm.IsDay n day) (hs : tm.IsSecond secs)
    (hdst : indst tm = true) :
    (tm.tm_hour < 23 ∧ (addHour tm).IsDay n day ∧ (addHour tm).IsSecond (secs + 3600)) ∨
      (tm.tm_hour = 23 ∧ (addHour tm).IsDay n (day + 1) ∧
        (addHour tm).IsSecond (secs + 3600 - 86400)) := by
  obtain ⟨⟨hh, hh'⟩, hmin, hsec, hsecs⟩ := hs
  obtain ⟨hyear, hdate, hday, hwday, hyday⟩ := hd
  by_cases hlast : tm.tm_hour + 1 > 23
  · refine .inr ⟨by omega, ?_⟩
    have hfeb : monthsWith (febDays tm.tm_year) = monthLengths n := by
      rw [hyear]
      exact febDays_eq (by omega)
    have hlength : (monthLengths n).getD tm.tm_mon 0 = monthLength n tm.tm_mon := rfl
    have hmonths := indst_months hdst
    have hweek : (tm.tm_wday + 1) % 7 = weekday (day + 1) := by
      rw [hwday, weekday, weekday]
      omega
    rcases hdate.next (by omega) with ⟨hin, hdate', hnext⟩ | ⟨hend, hdate', hnext⟩
    · have hsame : addHour tm = { tm with
          tm_isdst := 1
          tm_hour := tm.tm_hour + 1 - 24
          tm_wday := (tm.tm_wday + 1) % 7
          tm_yday := tm.tm_yday + 1
          tm_mday := tm.tm_mday + 1 } := by
        simp only [addHour, if_pos hlast, hfeb, hlength]
        rw [if_neg (by omega)]
      rw [hsame]
      refine ⟨⟨hyear, hdate', hnext.trans (by rw [hday]), hweek, ?_⟩, ⟨⟨?_, ?_⟩, hmin, hsec, ?_⟩⟩
      · show tm.tm_yday + 1 = daysBeforeMonth n tm.tm_mon + (tm.tm_mday + 1) - 1
        omega
      all_goals
        dsimp only
        omega
    · have hsame : addHour tm = { tm with
          tm_isdst := 1
          tm_hour := tm.tm_hour + 1 - 24
          tm_wday := (tm.tm_wday + 1) % 7
          tm_yday := tm.tm_yday + 1
          tm_mday := 1
          tm_mon := tm.tm_mon + 1 } := by
        simp only [addHour, if_pos hlast, hfeb, hlength]
        rw [if_pos (by omega)]
      rw [hsame]
      refine ⟨⟨hyear, hdate', hnext.trans (by rw [hday]), hweek, ?_⟩, ⟨⟨?_, ?_⟩, hmin, hsec, ?_⟩⟩
      · show tm.tm_yday + 1 = daysBeforeMonth n (tm.tm_mon + 1) + 1 - 1
        rw [daysBeforeMonth_succ]
        omega
      all_goals
        dsimp only
        omega
  · have hsame : addHour tm = { tm with tm_isdst := 1, tm_hour := tm.tm_hour + 1 } := by
      simp only [addHour, if_neg hlast]
    rw [hsame]
    refine .inl ⟨by omega, ⟨hyear, hdate, hday, hwday, hyday⟩, ⟨⟨?_, ?_⟩, hmin, hsec, ?_⟩⟩
    all_goals
      dsimp only
      omega

/-! ## Daylight savings time -/

/-- The hour in which daylight savings time ends by the standard time, but not by the local one: the
last one in front of the last Sunday of an October. -/
def LastHour (standard : ℤ) : Prop :=
  ∃ (n : ℕ) (mday : ℤ), 24 ≤ mday ∧ mday ≤ 30 ∧ dayNumber n 9 mday = standard / 86400 ∧
    weekday (standard / 86400) = 6 ∧ 82800 ≤ standard % 86400

theorem addHour_indst_same (h : tm.tm_hour < 23) : indst (addHour tm) = indst tm := by
  have hlast : ¬tm.tm_hour + 1 > 23 := by omega
  rw [addHour]
  dsimp only
  rw [if_neg hlast]
  rfl

/-- In the next day there is daylight savings time too, unless it is the last Sunday of October. -/
theorem addHour_indst_next (hd : tm.IsDay n day) (hn : n < 70) (hh : tm.tm_hour = 23)
    (hdst : indst tm = true) :
    indst (addHour tm) = true ↔ ¬(tm.tm_mon = 9 ∧ tm.tm_wday = 6 ∧ 24 ≤ tm.tm_mday) := by
  obtain ⟨hyear, hdate, hday, hwday, -⟩ := hd
  have hfeb : monthsWith (febDays tm.tm_year) = monthLengths n := by
    rw [hyear]
    exact febDays_eq (by omega)
  have hlength : (monthLengths n).getD tm.tm_mon 0 = monthLength n tm.tm_mon := rfl
  have hmonths := indst_months hdst
  have hlast : tm.tm_hour + 1 > 23 := by omega
  have hweek : 0 ≤ tm.tm_wday ∧ tm.tm_wday ≤ 6 := by
    rw [hwday, weekday]
    omega
  have hfirst := hdate.first
  rcases hdate.next (by omega) with ⟨hin, -, -⟩ | ⟨hend, -, -⟩
  · have hsame : indst (addHour tm) = indst { tm with
        tm_wday := (tm.tm_wday + 1) % 7
        tm_mday := tm.tm_mday + 1 } := by
      simp only [addHour, if_pos hlast, hfeb, hlength]
      rw [if_neg (by omega)]
      rfl
    rw [hsame]
    simp only [indst] at hdst ⊢
    by_cases h3 : tm.tm_mon = 3
    · simp only [h3, if_true, Bool.or_eq_true, Bool.and_eq_true, decide_eq_true_eq] at hdst ⊢
      omega
    · by_cases h9 : tm.tm_mon = 9
      · simp only [h9, if_true, if_neg (show ¬9 = 3 by decide), Bool.not_eq_true',
          decide_eq_false_iff_not, true_and] at hdst ⊢
        omega
      · simp only [h3, h9, if_false] at hdst ⊢
        simp [hdst]
  · have hsame : indst (addHour tm) = indst { tm with
        tm_wday := (tm.tm_wday + 1) % 7
        tm_mday := 1
        tm_mon := tm.tm_mon + 1 } := by
      simp only [addHour, if_pos hlast, hfeb, hlength]
      rw [if_pos (by omega)]
      rfl
    rw [hsame]
    have hoct : tm.tm_mon ≠ 9 := by
      intro h9
      have h31 : monthLength n 9 = 31 := by
        simp only [monthLength, monthLengths, monthsWith]
        split_ifs <;> rfl
      rw [h9, h31] at hend
      simp only [indst, h9, if_true, if_neg (show ¬9 = 3 by decide), Bool.not_eq_true',
        decide_eq_false_iff_not] at hdst
      omega
    have hapr : tm.tm_mon + 1 ≠ 3 := by omega
    simp only [indst, hapr, hoct, if_false, false_and, not_false_eq_true, iff_true]
    by_cases h9 : tm.tm_mon + 1 = 9
    · simp only [h9, if_true, Bool.not_eq_true', decide_eq_false_iff_not]
      omega
    · simp only [h9, if_false, Bool.and_eq_true, decide_eq_true_eq]
      omega

/-- The local time is in the last hour exactly where the next day is such a Sunday. -/
theorem lastHour_iff {standard : ℤ} (hd : tm.IsDay n (standard / 86400))
    (hs : tm.IsSecond (standard % 86400)) :
    LastHour standard ↔ tm.tm_hour = 23 ∧ tm.tm_mon = 9 ∧ tm.tm_wday = 6 ∧ 24 ≤ tm.tm_mday ∧
      tm.tm_mday ≤ 30 := by
  obtain ⟨⟨hh, hh'⟩, hmin, hsec, hsecs⟩ := hs
  constructor
  · rintro ⟨k, mday, hlo, hup, hday, hweek, hlast⟩
    have hdate : IsDate k 9 mday := by
      refine ⟨by decide, by omega, ?_⟩
      have hoct : monthLength k 9 = 31 := by
        simp only [monthLength, monthLengths, monthsWith]
        split_ifs <;> rfl
      omega
    obtain ⟨rfl, hm, rfl⟩ := date_unique hdate hd.date (hday.trans hd.day_eq.symm)
    exact ⟨by omega, hm.symm, hd.wday.trans hweek, hlo, hup⟩
  · rintro ⟨hhour, hmon, hwday, hlo, hup⟩
    have hday := hd.day_eq
    rw [hmon] at hday
    exact ⟨n, tm.tm_mday, hlo, hup, hday, hd.wday.symm.trans hwday, by omega⟩

/-! ## The way back -/

theorem foldl_days (ds : List ℤ) (s : ℤ) :
    ds.foldl (fun s days => s + SECS_PER_DAY * days) s = s + 86400 * ds.sum := by
  induction ds generalizing s with
  | nil => simp
  | cons d ds ih =>
    rw [List.foldl_cons, ih, List.sum_cons, SECS_PER_DAY]
    ring

/-- `mktime` counts the seconds of the local time, and asks for daylight savings time then. -/
theorem mktime_eq (TZ : Option (List Ascii)) (z : Zone) (hn : n < 70) (hd : tm.IsDay n day)
    (hs : tm.IsSecond secs) :
    (mktime TZ z tm).2 = long32 (86400 * day + secs + (setZone TZ z).timezone -
      if (setZone TZ z).dst = 1 ∧ indst tm = true then 3600 else 0) := by
  obtain ⟨hyear, hdate, hday, -, -⟩ := hd
  obtain ⟨-, -, -, hsecs⟩ := hs
  have hy : tm.tm_year - 70 = n := by omega
  have hfeb : monthsWith (if ((n : ℤ) + 2) % 4 ≠ 0 then 28 else 29) = monthLengths n := by
    have hleap : ((n : ℤ) + 2) % 4 ≠ 0 ↔ ¬IsLeap (1970 + n) := by
      rw [isLeap_iff (by omega)]
      omega
    simp only [monthLengths, hleap, ite_not]
  have hbefore := daysBeforeYear_eq (show n ≤ 130 by omega)
  simp only [mktime, hy, if_neg (Int.natCast_nonneg n).not_gt, hfeb, foldl_days]
  have hmonth : ((monthLengths n).take tm.tm_mon).sum = daysBeforeMonth n tm.tm_mon := rfl
  rw [hmonth, ← hday, ← hsecs, dayNumber, hbefore]
  simp only [SECS_PER_YEAR, SECS_PER_DAY, SECS_PER_HOUR, SECS_PER_MIN]
  congr 1
  split_ifs
  · ring
  · ring

/-! ## The time zone -/

variable {TZ : Option (List Ascii)} {z : Zone} {t : ℤ}

theorem zoneDigits_range (s : List Ascii) : -32768 ≤ zoneDigits s ∧ zoneDigits s < 32768 := by
  have hstep : ∀ (ds : List Ascii) (x : ℤ), -32768 ≤ x ∧ x < 32768 →
      -32768 ≤ ds.foldl (fun x c => int16 (10 * x + (c.val - 48))) x ∧
        ds.foldl (fun x c => int16 (10 * x + (c.val - 48))) x < 32768 := by
    intro ds
    induction ds with
    | nil => exact fun x hx => hx
    | cons c ds ih => exact fun x hx => ih _ (int16_range _)
  exact hstep _ 0 (by decide)

/-- A time zone is a number of minutes, and less than half the range of a `long`. -/
theorem tzoffset_range (TZ : Option (List Ascii)) : (tzoffset TZ).timezone % 60 = 0 ∧
    -1000000000 < (tzoffset TZ).timezone ∧ (tzoffset TZ).timezone < 1000000000 := by
  unfold tzoffset
  split
  · decide
  · decide
  · rename_i s _
    have hwest := zoneDigits_range (s.dropWhile isalpha)
    have hwest' := zoneDigits_range ((s.dropWhile isalpha).dropWhile isdigit).tail
    have heast := zoneDigits_range (s.dropWhile isalpha).tail
    have heast' := zoneDigits_range ((s.dropWhile isalpha).tail.dropWhile isdigit).tail
    dsimp only
    simp only [SECS_PER_HOUR, SECS_PER_MIN]
    split_ifs <;> omega

theorem setZone_tzoffset (hz : z = initialZone ∨ z = tzoffset TZ) : setZone TZ z = tzoffset TZ := by
  rcases hz with rfl | rfl
  · rfl
  · have hrange := tzoffset_range TZ
    exact if_neg (by omega)

/-- `localtime` returns the date of the local time, which is one hour more than `mktime` takes off
in the last hour of daylight savings time. -/
theorem localtime_spec (hz : z = initialZone ∨ z = tzoffset TZ)
    (h0 : 0 ≤ t - (tzoffset TZ).timezone) (ht : t - (tzoffset TZ).timezone < 2147483648) :
    ∃ tm n day secs, localtime TZ z t = (tzoffset TZ, some tm) ∧ n < 70 ∧ tm.IsDay n day ∧
      tm.IsSecond secs ∧
      ((¬((tzoffset TZ).dst = 1 ∧ LastHour (t - (tzoffset TZ).timezone)) ∧
          86400 * day + secs = t - (tzoffset TZ).timezone +
            if (tzoffset TZ).dst = 1 ∧ indst tm = true then 3600 else 0) ∨
        ((tzoffset TZ).dst = 1 ∧ LastHour (t - (tzoffset TZ).timezone) ∧ indst tm = false ∧
          86400 * day + secs = t - (tzoffset TZ).timezone + 3600)) := by
  obtain ⟨loc, hloc⟩ : ∃ loc, t - (tzoffset TZ).timezone = loc := ⟨_, rfl⟩
  rw [hloc] at h0 ht ⊢
  obtain ⟨stm, n, hgm, hn, hday, hsec⟩ := gmtime_spec h0 ht
  obtain ⟨isdst, hisdst⟩ : ∃ d : ℤ, (if (tzoffset TZ).dst = -1 then -1 else 0) = d := ⟨_, rfl⟩
  have hlong : long32 loc = loc := long32_of_range (by omega) ht
  have hcall : localtime TZ z t = (tzoffset TZ, some
      (if (tzoffset TZ).dst = 1 ∧ indst stm = true then addHour { stm with tm_isdst := isdst }
        else { stm with tm_isdst := isdst })) := by
    simp only [localtime, setZone_tzoffset hz, hloc, hlong, hgm, hisdst, Option.map_some]
    rfl
  -- The flag says nothing about the day.
  obtain ⟨tm, htm⟩ : ∃ tm, { stm with tm_isdst := isdst } = tm := ⟨_, rfl⟩
  have hday' : tm.IsDay n (loc / 86400) := by
    rw [← htm]
    exact ⟨hday.year, hday.date, hday.day_eq, hday.wday, hday.yday⟩
  have hsec' : tm.IsSecond (loc % 86400) := by
    rw [← htm]
    exact ⟨hsec.hour, hsec.min, hsec.sec, hsec.secs_eq⟩
  have hindst : indst stm = indst tm := by rw [← htm, indst, indst]
  rw [htm, hindst] at hcall
  have hwhole : 86400 * (loc / 86400) + loc % 86400 = loc := Int.mul_ediv_add_emod ..
  have hlast := lastHour_iff hday' hsec'
  by_cases hshift : (tzoffset TZ).dst = 1 ∧ indst tm = true
  · rw [if_pos hshift] at hcall
    obtain ⟨hdst, htrue⟩ := hshift
    rcases addHour_spec hn hday' hsec' htrue with ⟨hhour, hd, hs⟩ | ⟨hhour, hd, hs⟩
    · refine ⟨_, n, _, _, hcall, hn, hd, hs, .inl ⟨?_, ?_⟩⟩
      · rintro ⟨-, h⟩
        have := (hlast.mp h).1
        omega
      · rw [if_pos ⟨hdst, (addHour_indst_same hhour).trans htrue⟩]
        omega
    · refine ⟨_, n, _, _, hcall, hn, hd, hs, ?_⟩
      have hnext := addHour_indst_next hday' hn hhour htrue
      by_cases hend : LastHour loc
      · obtain ⟨-, hmon, hwday, hlo, -⟩ := hlast.mp hend
        have hfalse : indst (addHour tm) = false := by
          rw [← Bool.not_eq_true, hnext]
          exact fun h => h ⟨hmon, hwday, hlo⟩
        exact .inr ⟨hdst, hend, hfalse, by omega⟩
      · have hstill : indst (addHour tm) = true := by
          rw [hnext]
          rintro ⟨hmon, hwday, hlo⟩
          refine hend (hlast.mpr ⟨hhour, hmon, hwday, hlo, ?_⟩)
          simp only [indst, hmon, if_true, if_neg (show ¬9 = 3 by decide), Bool.not_eq_true',
            decide_eq_false_iff_not] at htrue
          omega
        refine .inl ⟨fun h => hend h.2, ?_⟩
        rw [if_pos ⟨hdst, hstill⟩]
        omega
  · rw [if_neg hshift] at hcall
    refine ⟨_, n, _, _, hcall, hn, hday', hsec', .inl ⟨?_, ?_⟩⟩
    · rintro ⟨hdst, h⟩
      obtain ⟨-, hmon, hwday, hlo, hup⟩ := hlast.mp h
      refine hshift ⟨hdst, ?_⟩
      simp only [indst, hmon, if_true, if_neg (show ¬9 = 3 by decide), Bool.not_eq_true',
        decide_eq_false_iff_not]
      omega
    · rw [if_neg hshift]
      omega

/-- The time comes back, and what was between is a date. -/
def RoundTrip (TZ : Option (List Ascii)) (z : Zone) (t : ℤ) : Prop :=
  ∃ tm, (localtime TZ z t).2 = some tm ∧ tm.Valid ∧ (mktime TZ (localtime TZ z t).1 tm).2 = t

/-- The time comes back unless it is in the last hour of daylight savings time, or the local time is
no `long`. -/
theorem calendar_round_trip (TZ : Option (List Ascii)) (z : Zone) (t : ℤ)
    (hz : z = initialZone ∨ z = tzoffset TZ) (h0 : 0 ≤ t) (ht : t < 2147483648)
    (hloc : 0 ≤ t - (tzoffset TZ).timezone) :
    RoundTrip TZ z t ↔ t - (tzoffset TZ).timezone < 2147483648 ∧
      ¬((tzoffset TZ).dst = 1 ∧ LastHour (t - (tzoffset TZ).timezone)) := by
  have hrange := tzoffset_range TZ
  by_cases hlong : t - (tzoffset TZ).timezone < 2147483648
  · obtain ⟨tm, n, day, secs, hcall, hn, hday, hsec, hlocal⟩ := localtime_spec hz hloc hlong
    have hback := mktime_eq TZ (tzoffset TZ) hn hday hsec
    rw [setZone_tzoffset (.inr rfl)] at hback
    have hiff : RoundTrip TZ z t ↔ (mktime TZ (tzoffset TZ) tm).2 = t := by
      rw [RoundTrip, hcall]
      constructor
      · rintro ⟨tm', htm, -, h⟩
        rwa [Option.some.inj htm]
      · exact fun h => ⟨tm, rfl, ⟨n, day, secs, hday, hsec⟩, h⟩
    rw [hiff, hback]
    rcases hlocal with ⟨hin, hsum⟩ | ⟨hdst, hlast, hindst, hsum⟩
    · have hsame : 86400 * day + secs + (tzoffset TZ).timezone -
          (if (tzoffset TZ).dst = 1 ∧ indst tm = true then 3600 else 0) = t := by omega
      rw [hsame]
      exact ⟨fun _ => ⟨hlong, hin⟩, fun _ => long32_of_range (by omega) ht⟩
    · -- `localtime` has added an hour, and `mktime` takes none off.
      have hmore : 86400 * day + secs + (tzoffset TZ).timezone -
          (if (tzoffset TZ).dst = 1 ∧ indst tm = true then 3600 else 0) = t + 3600 := by
        rw [if_neg (by simp [hindst])]
        omega
      rw [hmore, long32_eq]
      constructor
      · intro h
        split_ifs at h <;> omega
      · exact fun h => absurd ⟨hdst, hlast⟩ h.2
  · -- The difference is a negative `long`, and `gmtime` returns nothing.
    have hneg : long32 (t - (tzoffset TZ).timezone) < 0 := by
      rw [long32_eq]
      split_ifs <;> omega
    have hnone : (localtime TZ z t).2 = none := by
      simp only [localtime, setZone_tzoffset hz, gmtime, if_pos hneg, Option.map_none]
    constructor
    · rintro ⟨tm, htm, -⟩
      rw [hnone] at htm
      exact absurd htm (by simp)
    · exact fun h => absurd h.1 hlong

/-- "EST5EDT". -/
def eastern : Option (List Ascii) := some [69, 83, 84, 53, 69, 68, 84]

/-- Noon of the fourth of July 1990. -/
theorem calendar_round_trip_july : RoundTrip eastern initialZone 647107200 := by
  refine (calendar_round_trip eastern initialZone 647107200 (.inl rfl) (by decide) (by decide)
    (by decide +kernel)).mpr ⟨by decide +kernel, ?_⟩
  rintro ⟨-, n, mday, -, -, -, hweek, -⟩
  exact absurd hweek (by decide +kernel)

/-- The 27th of October 1990, half past eleven by the standard time and half past midnight of the
next day by daylight savings time. A time one hour later comes back. -/
theorem last_hour_lost : ¬RoundTrip eastern initialZone 657088200 := by
  rintro ⟨tm, htm, -, h⟩
  have hlater : (mktime eastern (localtime eastern initialZone 657088200).1 <$>
      (localtime eastern initialZone 657088200).2).map Prod.snd = some 657091800 := by
    decide +kernel
  rw [htm] at hlater
  exact absurd (h.symm.trans (Option.some.inj hlater)) (by decide)

end Minix.Ansi
