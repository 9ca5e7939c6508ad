import Mathlib.Data.List.TakeWhile
import Minix.Kernel.TtyRing
import Minix.Lib.UpTo

/-!
# The lines of a terminal

In cooked mode `tty_lfct` tells how many line feeds and markers of an end of file are in the input
queue (`Tty.InStep`), so that a reader gets one line, and none before there is one (`LineRead`).

The count is lost in four ways (`Tty.Slips`). `chuck` stops at a line feed but takes back a marker,
for an erase or for a kill, and leaves the count as it is. An end of file is counted before the
checks for control characters, and such a check may throw the marker away. And what is written over
another character of a full queue may end a line where the other one does not, or the reverse.
`Lines` tells by how much the count is ahead of the queue, and `Lines.inChar` that a character makes
it so exactly if it slips.
-/

namespace Minix.Kernel

open Lib

/-- The characters that end a line of cooked mode. -/
def endsLine (ch : UInt8) : Bool := ch = LF || ch = MARKER

/-- The count of lines is that of the queue. -/
def Tty.InStep (t : Tty) : Prop := t.tty_lfct = t.contents.countP endsLine

/-- What a reader gets of some characters: the marker is not transmitted. -/
def transmitted (taken : List UInt8) : List UInt8 := taken.filter (· ≠ MARKER)

/-- A line is queued, and a read with a buffer takes it, or as much of it as there is room for. -/
structure LineRead (t : Tty) (mapped : Bool) : Prop where
  line : ∃ ch ∈ t.contents, endsLine ch
  got : mapped = true →
    (rdChars t mapped).2.1 = transmitted ((upTo endsLine t.contents).take t.tty_inleft)
  answer : mapped = true → (rdChars t mapped).1 = (rdChars t mapped).2.1.length
  rest : mapped = true →
    (rdChars t mapped).2.2.contents =
      t.contents.drop ((upTo endsLine t.contents).take t.tty_inleft).length

/-- A reader that hangs is woken up by what has been typed. -/
def Tty.Wakes (t : Tty) : Prop :=
  t.tty_inleft > 0 ∧ (t.tty_lfct > 0 ∨ (t.inputMode ≠ 0 ∧ t.tty_incount > 0))

instance (t : Tty) : Decidable t.Wakes := by
  unfold Tty.Wakes
  infer_instance

/-- Each read that returns is one of a line. -/
def Tty.Served (t : Tty) : TtyAct → Prop
  | .char ch mapped => (inChar t ch).Wakes → LineRead (inChar t ch) mapped
  | .read count mapped =>
    t.tty_inleft = 0 → (rdChars { t with tty_inleft := count } mapped).1 ≠ SUSPEND →
      LineRead { t with tty_inleft := count } mapped
  | _ => True

/-- What is in the queue when a reader is looked for. -/
def Tty.typed (t : Tty) : TtyAct → Tty
  | .char ch _ => inChar t ch
  | _ => t

/-- The count of lines is right in all states of a run, and each read is one of a line. -/
def Tty.Orderly : Tty → List TtyAct → Prop
  | t, [] => t.InStep
  | t, a :: as => t.InStep ∧ (t.typed a).InStep ∧ t.Served a ∧ Tty.Orderly (t.act a).2 as

/-- The line stays in cooked mode. -/
def TtyAct.Cooked : TtyAct → Prop
  | .setp _ _ mode => mode &&& (RAW ||| CBREAK) = COOKED
  | _ => True

/-! ## How the count is lost -/

/-- The characters at the end of a queue that a kill takes back. -/
def pendingOf (q : List UInt8) : List UInt8 :=
  q.reverse.takeWhile fun ch => ¬ (ch = LF ∨ ch = CR)

/-- A marker is erased. -/
@[mk_iff]
structure Tty.Erased (t : Tty) (c : UInt8) : Prop where
  plain : t.tty_escaped = false
  erase : c = t.tty_erase
  marker : t.contents.getLast? = some MARKER

/-- A marker is killed. -/
@[mk_iff]
structure Tty.Killed (t : Tty) (c : UInt8) : Prop where
  plain : t.tty_escaped = false
  kill : c ≠ t.tty_erase ∧ c = t.tty_kill
  marker : MARKER ∈ pendingOf t.contents

/-- The marker of an end of file is taken for a control character. -/
@[mk_iff]
structure Tty.Lost (t : Tty) (c : UInt8) : Prop where
  plain : t.tty_escaped = false
  eof : (c ≠ t.tty_erase ∧ c ≠ t.tty_kill ∧ c ≠ BACKSLASH) ∧ c = t.tty_eof
  alive : MARKER ≠ t.tty_intr ∧ MARKER ≠ t.tty_quit
  stopped : MARKER = t.tty_xoff ∨ t.tty_inhibited = true

/-- A character is written over the first one of the queue, and one of them ends a line. -/
@[mk_iff]
structure Tty.Covered (t : Tty) (ch : UInt8) : Prop where
  overflows : t.Overflows ch
  differs : endsLine (t.tty_inqueue t.tty_intail) ≠ endsLine (t.mapCr (ch &&& 0o177))

/-- The count of lines is lost by a character that there is room for. -/
def Tty.Slip (t : Tty) (ch : UInt8) : Prop :=
  t.Erased (ch &&& 0o177) ∨ t.Killed (ch &&& 0o177) ∨ t.Lost (ch &&& 0o177) ∨ t.Covered ch

/-- The count of lines is lost. -/
def Tty.Slips (t : Tty) : TtyAct → Prop
  | .char ch _ => t.tty_incount < TTY_IN_BYTES ∧ t.Slip ch
  | _ => False

instance (t : Tty) (ch : UInt8) : Decidable (t.Overflows ch) :=
  decidable_of_iff _ (t.overflows_iff ch).symm

instance (t : Tty) (c : UInt8) : Decidable (t.Erased c) :=
  decidable_of_iff _ (t.erased_iff c).symm

instance (t : Tty) (c : UInt8) : Decidable (t.Killed c) :=
  decidable_of_iff _ (t.killed_iff c).symm

instance (t : Tty) (c : UInt8) : Decidable (t.Lost c) :=
  decidable_of_iff _ (t.lost_iff c).symm

instance (t : Tty) (ch : UInt8) : Decidable (t.Covered ch) :=
  decidable_of_iff _ (t.covered_iff ch).symm

instance (t : Tty) (a : TtyAct) : Decidable (t.Slips a) := by
  cases a <;> unfold Tty.Slips
  · unfold Tty.Slip
    infer_instance
  all_goals infer_instance

/-- No character of a run slips. -/
def Tty.Steady : Tty → List TtyAct → Prop
  | _, [] => True
  | t, a :: as => ¬ t.Slips a ∧ Tty.Steady (t.act a).2 as

/-! ## The count and the queue -/

/-- The queue of a line in cooked mode, and by how much the count is ahead of it. -/
structure Lines (t : Tty) (q : List UInt8) (ahead : ℤ) : Prop where
  rings : Rings t q
  count : t.tty_lfct = q.countP endsLine + ahead
  cooked : t.inputMode = COOKED

section Counting

variable {t t' : Tty} {q q' : List UInt8} {ahead : ℤ} {ch c : UInt8}

theorem Lines.inStep_iff (h : Lines t q ahead) : t.InStep ↔ ahead = 0 := by
  unfold Tty.InStep
  rw [h.rings.contents, h.count]
  omega

/-- Other fields do not matter. -/
theorem Lines.congr (h : Lines t q ahead) (hring : t'.ring = t.ring)
    (hcount : t'.tty_lfct = t.tty_lfct) (hmode : t'.tty_mode = t.tty_mode) : Lines t' q ahead := by
  refine ⟨h.rings.congr hring, hcount.trans h.count, ?_⟩
  unfold Tty.inputMode
  rw [hmode]
  exact h.cooked

/-- The difference that a character makes to the number of lines. -/
def lineWeight (ch : UInt8) : ℤ := if endsLine ch then 1 else 0

theorem countP_concat (q : List UInt8) (ch : UInt8) :
    ((q ++ [ch]).countP endsLine : ℤ) = q.countP endsLine + lineWeight ch := by
  rw [List.countP_append, List.countP_singleton]
  unfold lineWeight
  split <;> simp

theorem countP_cons_line (q : List UInt8) (ch : UInt8) :
    ((ch :: q).countP endsLine : ℤ) = q.countP endsLine + lineWeight ch := by
  rw [List.countP_cons]
  unfold lineWeight
  split <;> simp

theorem lineWeight_plain (hlf : ch ≠ LF) (hmarker : ch ≠ MARKER) : lineWeight ch = 0 := by
  unfold lineWeight endsLine
  rw [if_neg]
  simp [hlf, hmarker]

theorem lineWeight_marker : lineWeight MARKER = 1 := by decide

theorem lineWeight_LF : lineWeight LF = 1 := by decide

theorem lineWeight_BACKSLASH : lineWeight BACKSLASH = 0 := by decide

theorem lineWeight_sub_eq_zero : lineWeight c - lineWeight ch = 0 ↔ endsLine c = endsLine ch := by
  unfold lineWeight
  cases endsLine c <;> cases endsLine ch <;> simp

/-- A character is saved without being counted. -/
theorem Lines.save (h : Lines t q ahead) (hroom : q.length < TTY_IN_BYTES) (ch : UInt8) :
    Lines (t.save ch) (q ++ [ch]) (ahead - lineWeight ch) where
  rings := h.rings.save hroom
  count := by
    show t.tty_lfct = _
    rw [h.count, countP_concat]
    omega
  cooked := h.cooked

/-- A character is counted that is not saved yet. -/
theorem Lines.counted (h : Lines t q ahead) :
    Lines { t with tty_lfct := t.tty_lfct + 1 } q (ahead + 1) where
  rings := h.rings.congr rfl
  count := by
    show t.tty_lfct + 1 = _
    rw [h.count]
    omega
  cooked := h.cooked

theorem Lines.discard (h : Lines t q ahead) : Lines t.discard [] 0 where
  rings := rings_discard
  count := rfl
  cooked := h.cooked

theorem Lines.sigchar (h : Lines t q ahead) : Lines (sigchar t) [] 0 := by
  have h' : Lines { t with
      tty_inhibited := false
      tty_outleft := 0 } q ahead := h.congr rfl rfl rfl
  exact h'.discard

/-- A marker that is taken back is still counted. -/
theorem Lines.chuck (h : Lines t q ahead) (hc : chuck t = some t') :
    ∃ front ch, q = front ++ [ch] ∧ (ch ≠ LF ∧ ch ≠ CR) ∧
      Lines t' front (ahead + lineWeight ch) := by
  obtain ⟨front, ch, rfl, hend, hrings, hstep⟩ := h.rings.chuck hc
  refine ⟨front, ch, rfl, hend, hrings, ?_, ?_⟩
  · have hcount := h.count
    rw [countP_concat] at hcount
    rw [hstep]
    dsimp only
    rw [hcount]
    omega
  · rw [hstep]
    exact h.cooked

theorem pendingOf_concat_end {front : List UInt8} (hend : ch = LF ∨ ch = CR) :
    pendingOf (front ++ [ch]) = [] := by
  unfold pendingOf
  rw [List.reverse_append, List.reverse_singleton, List.singleton_append,
    List.takeWhile_cons_of_neg (by simpa [or_iff_not_imp_left] using hend)]

theorem pendingOf_concat {front : List UInt8} (hend : ch ≠ LF ∧ ch ≠ CR) :
    pendingOf (front ++ [ch]) = ch :: pendingOf front := by
  unfold pendingOf
  rw [List.reverse_append, List.reverse_singleton, List.singleton_append,
    List.takeWhile_cons_of_pos (by simpa using hend)]

theorem Lines.chuckAll (h : Lines t q ahead) {n : ℕ} (hn : q.length ≤ n) :
    ∃ q', q'.length ≤ q.length ∧
      Lines (chuckAll n t) q' (ahead + (pendingOf q).countP endsLine) := by
  induction n generalizing t q ahead with
  | zero =>
    have hq : q = [] := List.length_eq_zero_iff.mp (Nat.le_zero.mp hn)
    subst hq
    exact ⟨[], le_rfl, by simpa [Kernel.chuckAll, pendingOf] using h⟩
  | succ n ih =>
    unfold Kernel.chuckAll
    cases hc : Kernel.chuck t with
    | none =>
      have hnil : pendingOf q = [] := by
        obtain rfl | ⟨front, ch, rfl, hend⟩ := h.rings.chuck_none hc
        · rfl
        · exact pendingOf_concat_end hend
      rw [hnil]
      exact ⟨q, le_rfl, by simpa using h⟩
    | some t' =>
      obtain ⟨front, ch, rfl, hend, h'⟩ := h.chuck hc
      rw [List.length_append, List.length_singleton] at hn ⊢
      obtain ⟨q', hle, hk⟩ := ih h' (Nat.le_of_succ_le_succ hn)
      refine ⟨q', hle.trans (Nat.le_succ _), ?_⟩
      rw [pendingOf_concat hend, countP_cons_line, add_comm _ (lineWeight ch), ← add_assoc]
      exact hk

/-- Behind the last end of a line, the markers are what is counted. -/
theorem countP_pendingOf : (pendingOf q).countP endsLine = 0 ↔ MARKER ∉ pendingOf q := by
  rw [List.countP_eq_zero]
  constructor
  · intro h hmem
    exact h MARKER hmem (by decide)
  · intro h c hc hend
    have hplain : ¬ (c = LF ∨ c = CR) := by
      simpa using List.mem_takeWhile_imp hc
    unfold endsLine at hend
    have hmarker : c = MARKER := by
      simpa [not_or.mp hplain] using hend
    exact h (hmarker ▸ hc)

/-! ## What has been cooked -/

/-- What comes behind erase, kill and escape processing. -/
def Tty.allow (t : Tty) (ch : UInt8) : Tty :=
  match t.control (t.mapCr ch) with
  | (t, none) => t
  | (t, some ch) => t.enter ch

theorem checked_cooked (hmode : t.inputMode = COOKED) :
    t.checked c = match (t.cook c).2 with
      | none => (t.cook c).1
      | some ch => (t.cook c).1.allow ch := by
  unfold Tty.checked
  rw [if_pos hmode]
  rfl

/-- A character is counted if it is a line feed. -/
theorem Lines.enter (h : Lines t q ahead) (hroom : q.length < TTY_IN_BYTES) (hne : ch ≠ MARKER) :
    Lines (t.enter ch) (q ++ [ch]) ahead := by
  unfold Tty.enter
  split
  · next hlf =>
    have h' := h.counted.save hroom ch
    rw [hlf, lineWeight_LF, add_sub_cancel_right] at h'
    rw [hlf]
    exact h'
  · next hlf =>
    have h' := h.save hroom ch
    rw [lineWeight_plain hlf hne, sub_zero] at h'
    exact h'

/-- The marker has been counted before. -/
theorem Lines.enter_marker (h : Lines t q ahead) (hroom : q.length < TTY_IN_BYTES) :
    Lines (t.enter MARKER) (q ++ [MARKER]) (ahead - 1) := by
  unfold Tty.enter
  rw [if_neg (by decide), ← lineWeight_marker]
  exact h.save hroom _

/-- A character that is saved in a full queue is written over the first one. -/
theorem Lines.save_full (h : Lines t q ahead) (hfull : q.length = TTY_IN_BYTES) (ch : UInt8) :
    ∃ q', Lines (t.save ch) q'
      (ahead + lineWeight (t.tty_inqueue t.tty_intail) - 2 * lineWeight ch) := by
  have htail := h.rings.tail
  have hround : TTY_IN_BYTES = TTY_IN_BYTES - 1 + 1 := rfl
  have hcells := h.rings.cells
  rw [hfull] at hcells
  have hq : q = t.tty_inqueue t.tty_intail :: ringList TTY_IN_BYTES t.tty_inqueue
      ((t.tty_intail + 1) % TTY_IN_BYTES) (TTY_IN_BYTES - 1) := by
    rw [← ringList_pop htail, ← hround, hcells]
  have hhead : t.tty_inhead = t.tty_intail := by
    rw [h.rings.head, hfull, Nat.add_mod_right, Nat.mod_eq_of_lt htail]
  generalize hothers : ringList TTY_IN_BYTES t.tty_inqueue ((t.tty_intail + 1) % TTY_IN_BYTES)
    (TTY_IN_BYTES - 1) = others at hq
  have hlen : others.length + 1 = TTY_IN_BYTES := by
    rw [← hothers, length_ringList]
    rfl
  have hlen' : (ch :: others ++ [ch]).length = TTY_IN_BYTES + 1 := by
    simp only [List.length_append, List.length_cons, List.length_nil]
    omega
  refine ⟨ch :: others ++ [ch], ⟨?_, htail, ?_, ?_⟩, ?_, h.cooked⟩
  · show t.tty_incount + 1 = _
    rw [h.rings.count, hfull, hlen']
    rfl
  · show nextPlace t.tty_inhead = (t.tty_intail + _) % TTY_IN_BYTES
    rw [hhead, nextPlace_eq htail, hlen', ← Nat.add_assoc, Nat.add_right_comm, Nat.add_mod_right]
  · show ringList _ (Function.update t.tty_inqueue t.tty_inhead ch) t.tty_intail _ = _
    rw [hlen', hhead, ringList_cover htail, hothers]
  · show t.tty_lfct = _
    have hcount := h.count
    rw [hq, countP_cons_line] at hcount
    rw [hcount, List.cons_append, countP_cons_line, countP_concat]
    omega

/-- A character that is entered into a full queue. -/
theorem Lines.enter_full (h : Lines t q ahead) (hfull : q.length = TTY_IN_BYTES)
    (hne : ch ≠ MARKER) :
    ∃ q', Lines (t.enter ch) q'
      (ahead + (lineWeight (t.tty_inqueue t.tty_intail) - lineWeight ch)) := by
  unfold Tty.enter
  split
  · next hlf =>
    obtain ⟨q', h'⟩ := h.counted.save_full hfull ch
    refine ⟨q', ?_⟩
    have hahead : ahead + (lineWeight (t.tty_inqueue t.tty_intail) - lineWeight ch) =
        ahead + 1 + lineWeight (t.tty_inqueue t.tty_intail) - 2 * lineWeight ch := by
      rw [hlf, lineWeight_LF]
      omega
    rw [hahead]
    exact h'
  · next hlf =>
    obtain ⟨q', h'⟩ := h.save_full hfull ch
    refine ⟨q', ?_⟩
    have hahead : ahead + (lineWeight (t.tty_inqueue t.tty_intail) - lineWeight ch) =
        ahead + lineWeight (t.tty_inqueue t.tty_intail) - 2 * lineWeight ch := by
      rw [lineWeight_plain hlf hne]
      omega
    rw [hahead]
    exact h'

/-- The character is one that interrupts. -/
def Tty.Interrupts (t : Tty) (ch : UInt8) : Prop := ch = t.tty_intr ∨ ch = t.tty_quit

/-- The character stops the output or starts it again. -/
def Tty.Stops (t : Tty) (ch : UInt8) : Prop := ch = t.tty_xoff ∨ t.tty_inhibited = true

/-- What becomes of a character that has been cooked. -/
theorem Lines.allow (h : Lines t q ahead) (ch : UInt8) :
    (t.Interrupts (t.mapCr ch) ∧ Lines (t.allow ch) [] 0) ∨
      (¬ t.Interrupts (t.mapCr ch) ∧ t.Stops (t.mapCr ch) ∧ Lines (t.allow ch) q ahead) ∨
      (¬ t.Interrupts (t.mapCr ch) ∧ ¬ t.Stops (t.mapCr ch) ∧
        t.allow ch = t.enter (t.mapCr ch)) := by
  unfold Tty.allow Tty.control Tty.Interrupts Tty.Stops
  by_cases hsig : t.mapCr ch = t.tty_intr ∨ t.mapCr ch = t.tty_quit
  · rw [if_pos hsig]
    exact .inl ⟨hsig, h.sigchar⟩
  right
  rw [if_neg hsig]
  by_cases hxoff : t.mapCr ch = t.tty_xoff
  · rw [if_pos hxoff]
    exact .inl ⟨hsig, .inl hxoff, h.congr rfl rfl rfl⟩
  rw [if_neg hxoff]
  by_cases hinh : t.tty_inhibited = true
  · rw [if_pos hinh]
    exact .inl ⟨hsig, .inr hinh, h.congr rfl rfl rfl⟩
  · rw [if_neg hinh]
    exact .inr ⟨hsig, not_or.mpr ⟨hxoff, hinh⟩, rfl⟩

/-! ## A character has been typed -/

/-- The count is ahead of the queue exactly if something holds. -/
def Leads (t : Tty) (slip : Prop) : Prop := ∃ q ahead, Lines t q ahead ∧ (ahead = 0 ↔ ¬ slip)

theorem Lines.leads_of_not (h : Lines t q 0) {slip : Prop} (hslip : ¬ slip) : Leads t slip :=
  ⟨q, 0, h, iff_of_true rfl hslip⟩

/-- An erase. -/
theorem Lines.erased (h : Lines t q 0) (hplain : t.tty_escaped = false) (herase : c = t.tty_erase) :
    Leads ((Kernel.chuck t).getD t) (t.Erased c) := by
  cases hc : Kernel.chuck t with
  | none =>
    refine h.leads_of_not fun hslip => ?_
    have hlast := hslip.marker
    rw [h.rings.contents] at hlast
    obtain rfl | ⟨front, ch, rfl, hend⟩ := h.rings.chuck_none hc
    · cases hlast
    · rw [List.getLast?_concat, Option.some_inj] at hlast
      rw [hlast] at hend
      exact absurd hend (by decide)
  | some t' =>
    obtain ⟨front, ch, rfl, hend, h'⟩ := h.chuck hc
    refine ⟨front, _, h', ?_⟩
    have hslip : t.Erased c ↔ ch = MARKER := by
      constructor
      · intro he
        have hlast := he.marker
        rw [h.rings.contents, List.getLast?_concat, Option.some_inj] at hlast
        exact hlast
      · intro hm
        refine ⟨hplain, herase, ?_⟩
        rw [h.rings.contents, List.getLast?_concat, hm]
    rw [hslip, zero_add]
    by_cases hm : ch = MARKER
    · rw [hm, lineWeight_marker]
      simp
    · rw [lineWeight_plain hend.1 hm]
      simp [hm]

/-- A kill. -/
theorem Lines.killed (h : Lines t q 0) (hplain : t.tty_escaped = false)
    (hkill : c ≠ t.tty_erase ∧ c = t.tty_kill) :
    Leads (Kernel.chuckAll t.tty_incount.toNat t) (t.Killed c) := by
  have hn : q.length ≤ t.tty_incount.toNat := by
    rw [h.rings.count]
    exact le_rfl
  obtain ⟨q', -, h'⟩ := h.chuckAll hn
  refine ⟨q', _, h', ?_⟩
  rw [zero_add, Int.natCast_eq_zero, countP_pendingOf, not_iff_not]
  constructor
  · intro hm
    exact ⟨hplain, hkill, by rwa [h.rings.contents]⟩
  · intro hk
    have hm := hk.marker
    rwa [h.rings.contents] at hm

/-- An end of file. -/
theorem Lines.lost (h : Lines t q 0) (hroom : q.length < TTY_IN_BYTES)
    (hplain : t.tty_escaped = false)
    (heof : (c ≠ t.tty_erase ∧ c ≠ t.tty_kill ∧ c ≠ BACKSLASH) ∧ c = t.tty_eof) :
    Leads ({ t with tty_lfct := t.tty_lfct + 1 }.allow MARKER) (t.Lost c) := by
  have hcr : { t with tty_lfct := t.tty_lfct + 1 }.mapCr MARKER = MARKER := if_neg (by simp +decide)
  obtain ⟨hsig, h'⟩ | ⟨hsig, hstop, h'⟩ | ⟨hsig, hstop, he⟩ := h.counted.allow MARKER
  · refine h'.leads_of_not fun hl => ?_
    rw [hcr] at hsig
    exact hsig.elim hl.alive.1 hl.alive.2
  · rw [hcr] at hsig hstop
    refine ⟨q, _, h', iff_of_false (by omega) ?_⟩
    rw [not_not]
    exact ⟨hplain, heof, not_or.mp hsig, hstop⟩
  · rw [hcr] at hstop he
    rw [he]
    have h' := h.counted.enter_marker hroom
    rw [zero_add, sub_self] at h'
    exact h'.leads_of_not fun hl => hstop hl.stopped

/-- Another character, which is not a marker. -/
theorem Lines.plain (h : Lines t q 0) (hroom : q.length < TTY_IN_BYTES) (hc : c ≠ MARKER) :
    Leads (t.allow c) False := by
  have hcr : t.mapCr c ≠ MARKER := by
    unfold Tty.mapCr
    split
    · decide
    · exact hc
  obtain ⟨-, h'⟩ | ⟨-, -, h'⟩ | ⟨-, -, he⟩ := h.allow c
  · exact h'.leads_of_not id
  · exact h'.leads_of_not id
  · rw [he]
    exact (h.enter hroom hcr).leads_of_not id

theorem ne_marker_of_seven_bits (ch : UInt8) : ch &&& 0o177 ≠ MARKER := by
  intro h
  have h' := congrArg UInt8.toNat h
  rw [UInt8.toNat_and] at h'
  have hle : ch.toNat &&& (0o177 : UInt8).toNat ≤ (0o177 : UInt8).toNat := Nat.and_le_right
  rw [h'] at hle
  exact absurd hle (by decide)

/-- A character behind a backslash that does not escape it. -/
theorem Lines.behind (h : Lines t q 0) (hroom : q.length < TTY_IN_BYTES)
    (hescaped : t.tty_escaped = true)
    (hplain : ch &&& 0o177 ≠ t.tty_erase ∧ ch &&& 0o177 ≠ t.tty_kill ∧ ch &&& 0o177 ≠ t.tty_eof) :
    Leads (({ t with tty_escaped := false }.save BACKSLASH).allow (ch &&& 0o177))
      (t.Covered ch) := by
  have h₀ : Lines { t with tty_escaped := false } q 0 := h.congr rfl rfl rfl
  have h₁ := h₀.save hroom BACKSLASH
  rw [lineWeight_BACKSLASH, sub_zero] at h₁
  generalize hsaved : { t with tty_escaped := false }.save BACKSLASH = t' at h₁
  have hcr : t'.mapCr (ch &&& 0o177) = t.mapCr (ch &&& 0o177) := by
    rw [← hsaved]
    rfl
  have hne : t.mapCr (ch &&& 0o177) ≠ MARKER := by
    unfold Tty.mapCr
    split
    · decide
    · exact ne_marker_of_seven_bits ch
  obtain ⟨hsig, h'⟩ | ⟨hsig, hstop, h'⟩ | ⟨hsig, hstop, he⟩ := h₁.allow (ch &&& 0o177)
  · refine h'.leads_of_not fun hcov => ?_
    rw [hcr, ← hsaved] at hsig
    have hstored := hcov.overflows.stored.1
    exact hsig.elim hstored.1 hstored.2
  · refine h'.leads_of_not fun hcov => ?_
    rw [hcr, ← hsaved] at hstop
    have hstored := hcov.overflows.stored.2
    refine hstop.elim hstored.1 fun hinh => ?_
    exact Bool.false_ne_true (hstored.2.symm.trans hinh)
  · rw [hcr] at hsig hstop he
    rw [he]
    by_cases hlast : q.length + 1 = TTY_IN_BYTES
    · -- There is no room left behind the backslash.
      have hfull : (q ++ [BACKSLASH]).length = TTY_IN_BYTES := by
        rw [List.length_append, List.length_singleton, hlast]
      obtain ⟨q', h'⟩ := h₁.enter_full hfull hne
      refine ⟨q', _, h', ?_⟩
      have hfirst : t'.tty_inqueue t'.tty_intail = t.tty_inqueue t.tty_intail := by
        rw [← hsaved]
        show Function.update t.tty_inqueue t.tty_inhead BACKSLASH t.tty_intail = _
        refine Function.update_of_ne ?_ _ _
        have htail := h.rings.tail
        rw [h.rings.head]
        unfold TTY_IN_BYTES at *
        omega
      rw [zero_add, hfirst, lineWeight_sub_eq_zero]
      have hover : t.Overflows ch := by
        rw [← hsaved] at hsig hstop
        have hstop' := not_or.mp hstop
        refine ⟨?_, h.cooked, hescaped, hplain, not_or.mp hsig, hstop'.1, ?_⟩
        · rw [h.rings.count]
          omega
        · exact Bool.eq_false_iff.mpr hstop'.2
      constructor
      · intro heq hcov
        exact hcov.differs heq
      · intro hcov
        by_contra hdiffers
        exact hcov ⟨hover, hdiffers⟩
    · have hroom' : (q ++ [BACKSLASH]).length < TTY_IN_BYTES := by
        rw [List.length_append, List.length_singleton]
        omega
      refine (h₁.enter hroom' hne).leads_of_not fun hcov => ?_
      have hcount := hcov.overflows.count
      rw [h.rings.count] at hcount
      unfold TTY_IN_BYTES at *
      omega

theorem Leads.of_iff {t : Tty} {a b : Prop} (h : Leads t a) (hab : a ↔ b) : Leads t b :=
  propext hab ▸ h

/-- What a character does to the count of lines. -/
theorem Lines.checked (h : Lines t q 0) (hroom : q.length < TTY_IN_BYTES) :
    Leads (t.checked (ch &&& 0o177)) (t.Slip ch) := by
  have hne := ne_marker_of_seven_bits ch
  rw [checked_cooked h.cooked]
  unfold Tty.Slip Tty.cook
  by_cases hplain : t.tty_escaped = false
  · have hcov : ¬ t.Covered ch := fun hc =>
      Bool.false_ne_true (hplain.symm.trans hc.overflows.escaped)
    by_cases herase : ch &&& 0o177 = t.tty_erase
    · rw [if_pos ⟨herase, hplain⟩]
      refine (h.erased hplain herase).of_iff ⟨.inl, ?_⟩
      rintro (he | hk | hl | hc)
      · exact he
      · exact absurd herase hk.kill.1
      · exact absurd herase hl.eof.1.1
      · exact absurd hc hcov
    have hnoterased : ¬ t.Erased (ch &&& 0o177) := fun he => herase he.erase
    rw [if_neg (fun he => herase he.1)]
    by_cases hkill : ch &&& 0o177 = t.tty_kill
    · rw [if_pos ⟨hkill, hplain⟩]
      refine (h.killed hplain ⟨herase, hkill⟩).of_iff ⟨fun hk => .inr (.inl hk), ?_⟩
      rintro (he | hk | hl | hc)
      · exact absurd he hnoterased
      · exact hk
      · exact absurd hkill hl.eof.1.2.1
      · exact absurd hc hcov
    have hnotkilled : ¬ t.Killed (ch &&& 0o177) := fun hk => hkill hk.kill.2
    rw [if_neg (fun hk => hkill hk.1), if_pos hplain]
    by_cases hback : ch &&& 0o177 = BACKSLASH
    · rw [if_pos hback]
      have h' : Lines { t with tty_escaped := true } q 0 := h.congr rfl rfl rfl
      refine h'.leads_of_not ?_
      rintro (he | hk | hl | hc)
      · exact hnoterased he
      · exact hnotkilled hk
      · exact hl.eof.1.2.2 hback
      · exact hcov hc
    rw [if_neg hback]
    by_cases heof : ch &&& 0o177 = t.tty_eof
    · rw [if_pos heof]
      refine (h.lost hroom hplain ⟨⟨herase, hkill, hback⟩, heof⟩).of_iff
        ⟨fun hl => .inr (.inr (.inl hl)), ?_⟩
      rintro (he | hk | hl | hc)
      · exact absurd he hnoterased
      · exact absurd hk hnotkilled
      · exact hl
      · exact absurd hc hcov
    · rw [if_neg heof]
      refine (h.plain hroom hne).of_iff ⟨False.elim, ?_⟩
      rintro (he | hk | hl | hc)
      · exact hnoterased he
      · exact hnotkilled hk
      · exact heof hl.eof.2
      · exact hcov hc
  · have hescaped : t.tty_escaped = true := by simpa using hplain
    have hother : ∀ {a : Prop}, t.Erased (ch &&& 0o177) ∨ t.Killed (ch &&& 0o177) ∨
        t.Lost (ch &&& 0o177) ∨ a → a := by
      rintro a (he | hk | hl | ha)
      · exact absurd he.plain hplain
      · exact absurd hk.plain hplain
      · exact absurd hl.plain hplain
      · exact ha
    rw [if_neg (fun he => hplain he.2), if_neg (fun hk => hplain hk.2), if_neg hplain]
    dsimp only
    by_cases hspecial : ch &&& 0o177 ≠ t.tty_erase ∧ ch &&& 0o177 ≠ t.tty_kill ∧
        ch &&& 0o177 ≠ t.tty_eof
    · rw [if_pos hspecial]
      exact (h.behind hroom hescaped hspecial).of_iff
        ⟨fun hc => .inr (.inr (.inr hc)), hother⟩
    · rw [if_neg hspecial]
      have h' : Lines { t with tty_escaped := false } q 0 := h.congr rfl rfl rfl
      refine (h'.plain hroom hne).of_iff ⟨False.elim, fun hs => ?_⟩
      exact hspecial (hother hs).overflows.plain

theorem Lines.inChar (h : Lines t q 0) (mapped : Bool) :
    Leads (inChar t ch) (t.Slips (.char ch mapped)) := by
  unfold Kernel.inChar
  have hcount := h.rings.count
  split
  · next hfull => exact h.leads_of_not fun hslip => absurd hslip.1 (not_lt.mpr hfull)
  next hroom =>
    have hraw : t.inputMode ≠ RAW := by
      rw [h.cooked]
      decide
    dsimp only
    rw [if_pos (.inl h.cooked), if_pos hraw]
    exact (h.checked (by omega)).of_iff ⟨fun hs => ⟨not_le.mp hroom, hs⟩, And.right⟩

end Counting

end Minix.Kernel
