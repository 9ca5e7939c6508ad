import Minix.Kernel.TtyLines

/-!
# Reading the lines of a terminal

What `rd_chars` takes from the queue of a line in cooked mode, and the runs of such a line: the
count of lines is right in all states, and each read is one of a line, if and only if no character
slips (`lines_in_step`).
-/

namespace Minix.Kernel

open Lib

section Reading

variable {t t' : Tty} {q q' : List UInt8} {ahead : ℤ} {ch c : UInt8}

/-! ## Reading a line -/

/-- What the inner loop takes from the queue is the first line, as far as it goes. -/
structure FillsLine (f f' : Filling) (taken : List UInt8) : Prop where
  got : f'.got = f.got ++ taken
  count : f'.tty.tty_lfct = f.tty.tty_lfct - taken.countP endsLine
  eot : f'.eot_seen = (f.eot_seen || decide (MARKER ∈ taken))
  enough : f'.enough = (f.enough || taken.any endsLine)

theorem FillsLine.nil (f : Filling) : FillsLine f f [] where
  got := (List.append_nil _).symm
  count := (sub_zero _).symm
  eot := by simp
  enough := by simp

theorem fill_line {n : ℕ} {f : Filling} {q : List UInt8} (htail : f.tty.tty_intail < TTY_IN_BYTES)
    (hq : ringList TTY_IN_BYTES f.tty.tty_inqueue f.tty.tty_intail q.length = q)
    (hn : n ≤ q.length) : FillsLine f (fill true n f) ((upTo endsLine q).take n) := by
  induction n generalizing f q with
  | zero => exact .nil f
  | succ n ih =>
    cases q with
    | nil => exact absurd hn (Nat.not_succ_le_zero n)
    | cons c q =>
      rw [List.length_cons, ringList_pop htail] at hq
      obtain ⟨hc, hrest⟩ := List.cons_eq_cons.mp hq
      rw [← nextPlace_eq htail] at hrest
      have hnext : nextPlace f.tty.tty_intail < TTY_IN_BYTES := by
        rw [nextPlace_eq htail]
        exact Nat.mod_lt _ (by decide)
      unfold fill
      dsimp only
      rw [hc]
      by_cases hend : endsLine c
      · have hcond : c = LF ∨ (c = MARKER ∧ (true : Bool) = true) := by
          simpa [endsLine] using hend
        rw [if_pos hcond, if_pos rfl, upTo_cons_of_pos hend, List.take_succ_cons, List.take_nil]
        constructor
        · rfl
        · simp [hend]
        · simp [eq_comm]
        · simp [hend]
      · have hcond : ¬ (c = LF ∨ (c = MARKER ∧ (true : Bool) = true)) := by
          simpa [endsLine] using hend
        rw [if_neg hcond, upTo_cons_of_neg hend, List.take_succ_cons]
        have hone := ih (f := { f with
          tty := { f.tty with tty_intail := nextPlace f.tty.tty_intail }
          got := f.got ++ [c] }) hnext hrest (Nat.le_of_succ_le_succ hn)
        have hne : MARKER ≠ c := fun e => hcond (.inr ⟨e.symm, rfl⟩)
        constructor
        · rw [hone.got, List.append_assoc, List.singleton_append]
        · rw [hone.count, List.countP_cons_of_neg hend]
        · rw [hone.eot]
          simp [hne]
        · rw [hone.enough, List.any_cons, Bool.eq_false_iff.mpr hend, Bool.false_or]

theorem transmitted_append (a b : List UInt8) :
    transmitted (a ++ b) = transmitted a ++ transmitted b := List.filter_append ..

/-- A marker is the last character of what is taken. -/
theorem transmitted_marker {front : List UInt8} (h : (front ++ [MARKER]).countP endsLine ≤ 1) :
    transmitted (front ++ [MARKER]) = front := by
  have hnone : ∀ c ∈ front, c ≠ MARKER := by
    rintro c hc rfl
    have hpos : 0 < front.countP endsLine := List.countP_pos_iff.mpr ⟨MARKER, hc, by decide⟩
    rw [List.countP_append, List.countP_singleton, if_pos (by decide)] at h
    omega
  have hself : transmitted front = front := by
    unfold transmitted
    rw [List.filter_eq_self]
    simpa using hnone
  rw [transmitted_append, hself]
  exact List.append_nil _

/-- One buffer of a line goes to the reader. -/
theorem Lines.load (h : Lines t q ahead) {n : ℕ} (hn : n ≤ q.length) {taken : List UInt8}
    (htaken : (upTo endsLine q).take n = taken) {f : Filling}
    (hf : fill true n ⟨t, [], false, false⟩ = f) :
    Lines (copyBuffer f).1 (q.drop taken.length) ahead ∧ (copyBuffer f).2 = transmitted taken ∧
      (copyBuffer f).1.tty_inleft = t.tty_inleft - taken.length ∧
      f.enough = taken.any endsLine := by
  have hline : FillsLine ⟨t, [], false, false⟩ f taken := by
    rw [← hf, ← htaken]
    exact fill_line h.rings.tail h.rings.cells hn
  obtain ⟨k, hfills⟩ := fills true n ⟨t, [], false, false⟩ h.rings.tail rfl
  rw [hf] at hfills
  have hgot : f.got = taken := by rw [hline.got, List.nil_append]
  have hk : k = taken.length := by
    rw [← hgot, hfills.got, List.nil_append, length_ringList]
  have hprefix : taken <+: q := by
    rw [← htaken]
    exact (List.take_prefix _ _).trans upTo_prefix
  obtain ⟨lfct, htty⟩ := hfills.tty
  refine ⟨⟨?_, ?_, ?_⟩, ?_, ?_, ?_⟩
  · rw [← hk]
    exact h.rings.copyBuffer hn hfills
  · show f.tty.tty_lfct = _
    obtain ⟨rest, rfl⟩ := hprefix
    have hcount := h.count
    rw [List.countP_append] at hcount
    rw [hline.count, List.drop_left]
    push_cast at hcount
    dsimp only
    omega
  · show f.tty.inputMode = COOKED
    rw [htty]
    exact h.cooked
  · unfold copyBuffer
    dsimp only
    rw [hgot]
    split
    · next heot =>
      obtain ⟨front, hfront⟩ := hfills.eot heot
      rw [hgot] at hfront
      have hone : taken.countP endsLine ≤ 1 := by
        rw [← htaken]
        exact ((List.take_sublist _ _).countP_le).trans countP_upTo_le
      rw [hfront] at hone ⊢
      rw [transmitted_marker hone]
      simp
    · next heot =>
      have hnone : MARKER ∉ taken := by
        rw [hline.eot] at heot
        simpa using heot
      rw [List.take_length]
      unfold transmitted
      rw [eq_comm, List.filter_eq_self]
      intro c hc
      have hne : c ≠ MARKER := fun e => hnone (e ▸ hc)
      simpa using hne
  · show f.tty.tty_inleft - f.got.length = _
    rw [htty, hgot]
  · rw [hline.enough, Bool.false_or]

/-- A line is read buffer by buffer, as far as it is asked for. -/
theorem Lines.rdLoop (h : Lines t q ahead) (hline : ∃ c ∈ q, endsLine c) {n : ℕ}
    (hn : t.tty_inleft ≤ n) (given : List UInt8) {taken : List UInt8}
    (htaken : (upTo endsLine q).take t.tty_inleft = taken) :
    (Kernel.rdLoop true n t given).2 = given ++ transmitted taken ∧
      Lines (Kernel.rdLoop true n t given).1 (q.drop taken.length) ahead := by
  induction n generalizing t q given taken with
  | zero =>
    rw [Nat.le_zero.mp hn, List.take_zero] at htaken
    subst htaken
    exact ⟨(List.append_nil _).symm, h⟩
  | succ n ih =>
    unfold Kernel.rdLoop
    by_cases hleft : t.tty_inleft > 0
    · rw [if_pos hleft]
      dsimp only
      obtain ⟨c, hc, hend⟩ := hline
      have hq : 0 < q.length := List.length_pos_of_mem hc
      have hcount := h.rings.count
      generalize hbuf : min (min t.tty_inleft t.tty_incount.toNat) TTY_BUF_SIZE = buf
      have hbufq : buf ≤ q.length := by omega
      have hbufleft : buf ≤ t.tty_inleft := by omega
      have hbufpos : 0 < buf := by
        unfold TTY_BUF_SIZE at hbuf
        omega
      generalize hf : fill true buf ⟨t, [], false, false⟩ = f
      obtain ⟨h', hgiven, hleft', henough⟩ := h.load hbufq rfl hf
      obtain ⟨hany, hall⟩ | ⟨hany, htake, hall⟩ := upTo_piece (p := endsLine) buf hbufq
      · -- The line ends in this buffer.
        rw [henough, hany, if_pos (.inr rfl)]
        have hsame : taken = (upTo endsLine q).take buf := by
          rw [← htaken, List.take_of_length_le, ← hall]
          rw [hall, List.length_take]
          omega
        rw [hsame]
        exact ⟨by rw [hgiven], h'⟩
      · have hlen : (q.take buf).length = buf := by
          rw [List.length_take]
          omega
        rw [htake, hlen] at h' hleft'
        rw [htake] at hgiven hany
        have hline' : ∃ c ∈ q.drop buf, endsLine c := by
          rw [← List.take_append_drop buf q, List.mem_append] at hc
          refine ⟨c, hc.resolve_left fun hmem => ?_, hend⟩
          rw [List.any_eq_false] at hany
          exact hany c hmem hend
        have hgo : ¬ ((copyBuffer f).1.tty_incount = 0 ∨ f.enough = true) := by
          obtain ⟨c', hc', -⟩ := hline'
          have hpos := List.length_pos_of_mem hc'
          rw [h'.rings.count, henough, htake, hany]
          simp only [Bool.false_eq_true, or_false]
          omega
        rw [if_neg hgo]
        obtain ⟨hread, hlast⟩ := ih h' hline' (by omega) (given ++ (copyBuffer f).2) rfl
        have hsplit : taken =
            q.take buf ++ (upTo endsLine (q.drop buf)).take (copyBuffer f).1.tty_inleft := by
          rw [← htaken, hall, List.take_append, hlen, List.take_of_length_le (by omega), hleft']
        rw [hsplit, transmitted_append, List.length_append, hlen, ← List.drop_drop, ← hgiven,
          ← List.append_assoc]
        exact ⟨hread, hlast⟩
    · rw [if_neg hleft]
      rw [Nat.eq_zero_of_not_pos hleft, List.take_zero] at htaken
      subst htaken
      exact ⟨(List.append_nil _).symm, h⟩

/-- A line is queued if the count says so. -/
theorem Lines.line (h : Lines t q 0) (hcount : t.tty_lfct ≠ 0) : ∃ c ∈ q, endsLine c := by
  refine List.countP_pos_iff.mp (Nat.pos_of_ne_zero fun hzero => hcount ?_)
  rw [h.count, hzero]
  rfl

theorem Lines.rdChars_wait (h : Lines t q 0) (hline : ¬ ∃ c ∈ q, endsLine c) (mapped : Bool) :
    Kernel.rdChars t mapped = (SUSPEND, [], t) := by
  have hcount : t.tty_lfct = 0 := by
    by_contra hne
    exact hline (h.line hne)
  have hmode : t.inputMode = 0 := h.cooked
  unfold Kernel.rdChars
  dsimp only
  rw [if_pos (.inr ⟨decide_eq_true hmode, hcount⟩)]

theorem Lines.rdChars_line (h : Lines t q 0) (hline : ∃ c ∈ q, endsLine c) (mapped : Bool) :
    Kernel.rdChars t mapped = if mapped = false then ( E_BAD_ADDR, [], t) else
      (((Kernel.rdLoop true t.tty_inleft t []).2.length : ℤ),
        (Kernel.rdLoop true t.tty_inleft t []).2,
        { (Kernel.rdLoop true t.tty_inleft t []).1 with tty_inleft := 0 }) := by
  have hmode : t.inputMode = 0 := h.cooked
  have hcooked : decide (t.inputMode = 0) = true := decide_eq_true hmode
  have hpos : 0 < q.countP endsLine := List.countP_pos_iff.mpr hline
  obtain ⟨c, hc, -⟩ := hline
  have hlen := List.length_pos_of_mem hc
  have hgo : ¬ (t.tty_incount = 0 ∨ ((true : Bool) = true ∧ t.tty_lfct = 0)) := by
    rw [h.rings.count, h.count]
    omega
  unfold Kernel.rdChars
  rw [hcooked]
  dsimp only
  rw [if_neg hgo]

theorem Lines.rdChars (h : Lines t q 0) (mapped : Bool) :
    ∃ q', Lines (Kernel.rdChars t mapped).2.2 q' 0 := by
  by_cases hline : ∃ c ∈ q, endsLine c
  · rw [h.rdChars_line hline]
    split
    · exact ⟨q, h⟩
    · have h' := (h.rdLoop hline le_rfl [] rfl).2
      exact ⟨_, h'.congr rfl rfl rfl⟩
  · rw [h.rdChars_wait hline]
    exact ⟨q, h⟩

theorem Lines.lineRead (h : Lines t q 0) (hline : ∃ c ∈ q, endsLine c) (mapped : Bool) :
    LineRead t mapped := by
  have hread : mapped = true → Kernel.rdChars t mapped =
      (((Kernel.rdLoop true t.tty_inleft t []).2.length : ℤ),
        (Kernel.rdLoop true t.tty_inleft t []).2,
        { (Kernel.rdLoop true t.tty_inleft t []).1 with tty_inleft := 0 }) := by
    intro hmapped
    rw [h.rdChars_line hline, if_neg (by simp [hmapped])]
  obtain ⟨hgot, hrest⟩ := h.rdLoop hline le_rfl [] rfl
  constructor
  · rw [h.rings.contents]
    exact hline
  · intro hmapped
    rw [hread hmapped, h.rings.contents]
    exact hgot
  · intro hmapped
    rw [hread hmapped]
  · intro hmapped
    rw [hread hmapped, h.rings.contents]
    have hdone : Lines { (Kernel.rdLoop true t.tty_inleft t []).1 with tty_inleft := 0 }
        (q.drop ((upTo endsLine q).take t.tty_inleft).length) 0 := hrest.congr rfl rfl rfl
    exact hdone.rings.contents

/-! ## What happens to a line -/

theorem Lines.typed (h : Lines t q 0) (a : TtyAct) : Leads (t.typed a) (t.Slips a) := by
  cases a with
  | char ch mapped => exact h.inChar mapped
  | read | cancel | setp | setc | signal | output => exact h.leads_of_not id

theorem Lines.served {a : TtyAct} (h : Lines t q 0) (h' : Lines (t.typed a) q' 0) : t.Served a := by
  cases a with
  | char ch mapped =>
    rintro ⟨-, hcount | ⟨hmode, -⟩⟩
    · exact h'.lineRead (h'.line hcount.ne') mapped
    · exact absurd h'.cooked hmode
  | read count mapped =>
    intro _ hanswer
    have h₁ : Lines { t with tty_inleft := count } q 0 := h.congr rfl rfl rfl
    refine h₁.lineRead ?_ mapped
    by_contra hline
    exact hanswer (by rw [h₁.rdChars_wait hline])
  | cancel | setp | setc | signal | output => trivial

theorem Lines.act {a : TtyAct} (h : Lines t q 0) (h' : Lines (t.typed a) q' 0) (ha : a.Cooked) :
    ∃ q', Lines (t.act a).2 q' 0 := by
  cases a with
  | char ch mapped =>
    show ∃ q', Lines (charint t ch mapped).2 q' 0
    unfold charint
    dsimp only
    split
    · exact h'.rdChars mapped
    · exact ⟨_, h'⟩
  | read count mapped =>
    show ∃ q', Lines (doRead t count mapped).2.2 q' 0
    unfold doRead
    split
    · exact ⟨q, h⟩
    · have h₁ : Lines { t with tty_inleft := count } q 0 := h.congr rfl rfl rfl
      exact h₁.rdChars mapped
  | cancel mode =>
    show ∃ q', Lines (doCancel t mode) q' 0
    unfold doCancel
    dsimp only
    split_ifs
    · exact ⟨q, h⟩
    · exact ⟨[], h.discard.congr rfl rfl rfl⟩
    · exact ⟨q, h.congr rfl rfl rfl⟩
    · exact ⟨[], h.discard.congr rfl rfl rfl⟩
    · exact ⟨q, h⟩
  | setp erase kill mode => exact ⟨q, h.rings.congr rfl, h.count, ha⟩
  | setc intr quit xoff eof => exact ⟨q, h.congr rfl rfl rfl⟩
  | signal => exact ⟨[], h.sigchar⟩
  | output outleft => exact ⟨q, h.congr rfl rfl rfl⟩

theorem Lines.orderly_iff (h : Lines t q 0) {as : List TtyAct} (has : ∀ a ∈ as, a.Cooked) :
    t.Orderly as ↔ t.Steady as := by
  induction as generalizing t q with
  | nil => exact iff_of_true (h.inStep_iff.mpr rfl) trivial
  | cons a as ih =>
    obtain ⟨q₁, ahead, h₁, hslip⟩ := h.typed a
    have ha : a.Cooked := has a List.mem_cons_self
    have has' : ∀ a ∈ as, a.Cooked := fun b hb => has b (List.mem_cons_of_mem a hb)
    constructor
    · rintro ⟨-, htyped, -, hrest⟩
      rw [h₁.inStep_iff] at htyped
      rw [htyped] at h₁
      obtain ⟨q', h'⟩ := h.act h₁ ha
      exact ⟨hslip.mp htyped, (ih h' has').mp hrest⟩
    · rintro ⟨hsteady, hrest⟩
      rw [hslip.mpr hsteady] at h₁
      obtain ⟨q', h'⟩ := h.act h₁ ha
      exact ⟨h.inStep_iff.mpr rfl, h₁.inStep_iff.mpr rfl, h.served h₁, (ih h' has').mpr hrest⟩

end Reading

/-- On a line in cooked mode the count of lines is right in all states of a run, and each read is
one of a line, if and only if no character slips. -/
theorem lines_in_step {t : Tty} {as : List TtyAct} (hinit : t.Init) (hcount : t.tty_lfct = 0)
    (hcooked : t.inputMode = COOKED) (has : ∀ a ∈ as, a.Cooked) : t.Orderly as ↔ t.Steady as := by
  have h : Lines t [] 0 := ⟨hinit.rings, hcount, hcooked⟩
  exact h.orderly_iff has

/-- A line is typed with an erase in it, and read without the next one. -/
theorem lines_in_step_typed :
    let line :=
      [.char 97 true, .char 98 true, .char 8 true, .char LF true, .char 4 true, .read 4 true]
    bootTty.Orderly line ∧ (bootTty.run line).1 = [97, LF] := by
  refine ⟨(lines_in_step ⟨rfl, rfl, rfl, rfl⟩ rfl rfl ?_).mpr ?_, by decide +kernel⟩
  · simp [TtyAct.Cooked]
  · refine ⟨?_, ?_, ?_, ?_, ?_, ?_, trivial⟩ <;> decide +kernel

/-- An end of file is erased, and the next character alone is what a reader gets. -/
theorem marker_erased :
    let typed := [.char 4 true, .char 8 true, .char 97 true]
    ¬ bootTty.Orderly (typed ++ [.read 4 true]) ∧ (bootTty.run typed).2.contents = [97] ∧
      (bootTty.run typed).2.tty_lfct = 1 ∧ (bootTty.run (typed ++ [.read 4 true])).1 = [97] := by
  refine ⟨?_, by decide +kernel, by decide +kernel, by decide +kernel⟩
  rintro ⟨-, -, -, -, hcount, -⟩
  exact absurd hcount (by unfold Tty.InStep; decide +kernel)

end Minix.Kernel
