import Minix.Kernel.Vdu
import Minix.Lib.Run

/-!
# What the driver of the display writes

Whatever characters are sent, the driver writes the video RAM only, while the cursor is on a line of
the screen: with one exception, a byte or two behind its end, when a character is erased while the
cursor is behind the last column of the last line (`outChar_writes`). The cursor leaves the lines of
a monochrome screen when it is restored after a change from 50 lines to 25. And it is known when a
character is never done (`outChar_returns`).
-/

namespace Minix.Kernel

open Lib

/-- An offset in the video RAM. -/
def InVideoRam (a : ℤ) : Prop := 0 ≤ a ∧ a < VIDEORAM

/-- What is erased behind the last column of the last line. -/
structure Vdu.Beyond (v : Vdu) (a : ℤ) : Prop where
  ccol : v.ccol = NCOL
  crow : v.crow = v.nrow - 1
  place : a = VIDEORAM ∨ v.mono = false ∧ a = VIDEORAM + 2

/-- Only `A` is written. -/
structure Wrote (A : ℤ → Prop) (v v' : Vdu) : Prop where
  same : v' = { v with mem := v'.mem }
  frame : ∀ a, ¬A a → v'.mem a = v.mem a

/-- The screen has 25 lines, or 50 on a monochrome monitor. -/
def Vdu.Lines (v : Vdu) : Prop :=
  v.mono = true ∧ v.linc = 16 ∧ v.nrow = 25 ∧ v.bytr = 1280 ∨
    v.mono = true ∧ v.linc = 8 ∧ v.nrow = 50 ∧ v.bytr = 640 ∨
    v.mono = false ∧ v.linc = 8 ∧ v.nrow = 25 ∧ v.bytr = 1280

/-- A cursor: it is on a line that a screen of this kind can have. -/
structure CursorOk (mono : Bool) (crow ccol : ℤ) : Prop where
  row : 0 ≤ crow ∧ crow < if mono then 50 else 25
  col : 0 ≤ ccol ∧ ccol ≤ NCOL

/-- What holds whatever is displayed. The cursor is shown at a place of the screen. -/
structure Vdu.Inv (v : Vdu) : Prop where
  lines : v.Lines
  mono : v.mono = v.res_high
  cursor : CursorOk v.mono v.crow v.ccol
  saved : CursorOk v.mono v.savcrow v.savccol
  curs : ∃ r c, (0 ≤ r ∧ r < v.nrow) ∧ (0 ≤ c ∧ c < NCOL) ∧ v.curs = v.charAt r c

/-- The display when the system starts. -/
def VduStart (v : Vdu) : Prop :=
  ∃ v₀ : Vdu, v = vduinit v₀ ∧ v₀.mono = false ∧ v₀.savcrow = 0 ∧ v₀.savccol = 0

/-- A character is sent, the cursor is (un-)displayed, or the mode of the terminal is changed. -/
inductive VduStep (fonts : Fonts) (v : Vdu) : Unit → Vdu → Prop
  | char (fuel c : ℕ) {v' : Vdu} (h : outChar fonts fuel c v = some v') : VduStep fonts v () v'
  | cursor : VduStep fonts v () (vducursor v)
  | ioctl (xtabs crmod : Bool) : VduStep fonts v () { v with
      xtabs := xtabs
      crmod := crmod }

variable {A B : ℤ → Prop} {v w v' : Vdu} {r c : ℤ} {fonts : Fonts} {fuel : ℕ}

/-! ## Writes -/

theorem Wrote.refl (v : Vdu) : Wrote A v v := ⟨rfl, fun _ _ => rfl⟩

theorem Wrote.trans (h : Wrote A v w) (h' : Wrote A w v') : Wrote A v v' where
  same := by
    rw [h'.same, h.same]
  frame a ha := (h'.frame a ha).trans (h.frame a ha)

theorem poke_wrote {a : ℤ} {b : UInt8} (ha : A a) : Wrote A v (v.poke a b) where
  same := rfl
  frame x hx := by
    have hne : x ≠ a := by
      rintro rfl
      exact hx ha
    exact Function.update_of_ne hne b v.mem

/-- A loop writes what each of its steps writes. -/
theorem fold_wrote {l : List ℕ} {f : Vdu → ℕ → Vdu}
    (h : ∀ k ∈ l, ∀ w, Wrote A v w → Wrote A w (f w k)) : Wrote A v (l.foldl f v) := by
  have hall : ∀ w, Wrote A v w → Wrote A v (l.foldl f w) := by
    induction l with
    | nil => exact fun w hw => hw
    | cons k l ih =>
      intro w hw
      exact ih (fun j hj => h j (List.mem_cons_of_mem k hj)) _
        (hw.trans (h k List.mem_cons_self w hw))
  exact hall v (Wrote.refl v)

/-- The writes of a loop upwards. -/
theorem forUp_wrote {i n : ℤ} {f : ℤ → Vdu → Vdu}
    (h : ∀ j, i ≤ j → j < i + n → ∀ w, Wrote A v w → Wrote A w (f j w)) :
    Wrote A v (forUp i n f v) := by
  apply fold_wrote
  intro k hk w hw
  have hk := List.mem_range.mp hk
  exact h (i + k) (by omega) (by omega) w hw

/-- The writes of a loop downwards. -/
theorem forDown_wrote {i n : ℤ} {f : ℤ → Vdu → Vdu}
    (h : ∀ j, i - n < j → j ≤ i → ∀ w, Wrote A v w → Wrote A w (f j w)) :
    Wrote A v (forDown i n f v) := by
  apply fold_wrote
  intro k hk w hw
  have hk := List.mem_range.mp hk
  exact h (i - k) (by omega) (by omega) w hw

theorem scan_wrote {start : ℤ} {f : ℕ → Vdu → UInt8}
    (h : ∀ k : ℕ, k < v.linc → A (start + k * v.byteLine)) : Wrote A v (v.scan start f) := by
  apply fold_wrote
  intro k hk w hw
  have hk := List.mem_range.mp hk
  have hline : w.byteLine = v.byteLine := by
    rw [hw.same]
    rfl
  rw [hline]
  exact poke_wrote (h k (by omega))

/-- The bytes of a character may be written. -/
def Cell (A : ℤ → Prop) (v : Vdu) (p : ℤ) : Prop :=
  ∀ k : ℕ, k < v.linc → A (p + k * v.byteLine) ∧ (v.mono = false → A (p + 2 + k * v.byteLine))

/-- The bytes of a line may be written. -/
def Row (A : ℤ → Prop) (v : Vdu) (r : ℤ) : Prop := ∀ k : ℕ, k < v.bytr → A (int16 (r * v.bytr) + k)

/-- A character is changed in both planes. -/
theorem planes_wrote {p : ℤ} {f g : ℕ → Vdu → UInt8} (h : Cell A v p) :
    Wrote A v (if (v.scan p f).mono then v.scan p f else (v.scan p f).scan (p + 2) g) := by
  have hfirst : Wrote A v (v.scan p f) := scan_wrote fun k hk => (h k hk).1
  by_cases hmono : (v.scan p f).mono = true
  · rw [if_pos hmono]
    exact hfirst
  · rw [if_neg hmono]
    refine hfirst.trans ?_
    generalize v.scan p f = w at hfirst hmono ⊢
    rw [hfirst.same] at hmono ⊢
    exact scan_wrote fun k hk => (h k hk).2 (Bool.eq_false_iff.mpr hmono)

theorem clrchar_wrote (h : Cell A v (v.charAt r c)) : Wrote A v (clrchar r c v) := planes_wrote h

theorem cpychar_wrote {r₁ c₁ : ℤ} (h : Cell A v (v.charAt r c)) : Wrote A v (cpychar r₁ c₁ r c v) :=
  planes_wrote h

/-- A line is copied or cleared. -/
theorem line_wrote {f : ℕ → Vdu → UInt8} (h : Row A v r) : Wrote A v
    ((List.range (16 * (v.bytr / 16)).toNat).foldl
      (fun w (k : ℕ) => w.poke (int16 (r * w.bytr) + k) (f k w)) v) := by
  apply fold_wrote
  intro k hk w hw
  have hk := List.mem_range.mp hk
  have hbytr : w.bytr = v.bytr := by rw [hw.same]
  rw [hbytr]
  exact poke_wrote (h k (by omega))

theorem clrline_wrote (h : Row A v r) : Wrote A v (clrline r v) := line_wrote h

theorem cpyline_wrote {r₁ : ℤ} (h : Row A v r) : Wrote A v (cpyline r₁ r v) :=
  @line_wrote A v r (fun k v => v.mem (int16 (r₁ * v.bytr) + k)) h

/-! ## Places of the screen -/

theorem Wrote.cell (h : Wrote A v w) {p : ℤ} : Cell B w p ↔ Cell B v p := by
  rw [h.same]
  rfl

theorem Wrote.row (h : Wrote A v w) : Row B w r ↔ Row B v r := by
  rw [h.same]
  rfl

theorem Wrote.charAt (h : Wrote A v w) : w.charAt r c = v.charAt r c := by
  rw [h.same]
  rfl

/-- A line of the screen is in the video RAM. -/
theorem Vdu.Lines.row (h : v.Lines) (hr : 0 ≤ r ∧ r < v.nrow) : Row InVideoRam v r := by
  intro k hk
  unfold InVideoRam VIDEORAM
  rcases h with ⟨-, -, hn, hb⟩ | ⟨-, -, hn, hb⟩ | ⟨-, -, hn, hb⟩
  all_goals
    rw [hb] at hk ⊢
    rw [hn] at hr
    rw [int16_of_range (by omega) (by omega)]
    omega

/-- The offset of a character of the screen, or of the place behind the last column. -/
theorem Vdu.Lines.charAt_eq (h : v.Lines) (hr : 0 ≤ r ∧ r < v.nrow) (hc : 0 ≤ c ∧ c ≤ NCOL) :
    v.charAt r c = r * v.bytr + v.colByte c ∧ 0 ≤ v.colByte c ∧
      v.colByte c ≤ (if v.mono then c else 2 * c) := by
  unfold Vdu.charAt Vdu.colByte
  unfold NCOL at hc
  rcases h with ⟨hm, -, hn, hb⟩ | ⟨hm, -, hn, hb⟩ | ⟨hm, -, hn, hb⟩
  all_goals
    rw [hm, hb]
    rw [hn] at hr
    simp only [if_true, Bool.false_eq_true, if_false]
    rw [int16_of_range (x := r * _) (by omega) (by omega), int16_of_range (by omega) (by omega)]
    omega

/-- Where a character of the screen is written, or one behind the last column. -/
theorem Vdu.Lines.cell (h : v.Lines) (hr : 0 ≤ r ∧ r < v.nrow) (hc : 0 ≤ c ∧ c ≤ NCOL) :
    Cell (fun a => InVideoRam a ∨ c = NCOL ∧ r = v.nrow - 1 ∧
      (a = VIDEORAM ∨ v.mono = false ∧ a = VIDEORAM + 2)) v (v.charAt r c) := by
  obtain ⟨hat, hlo, hhi⟩ := h.charAt_eq hr hc
  intro k hk
  rw [hat]
  unfold InVideoRam VIDEORAM Vdu.byteLine M_BYT_LIN C_BYT_LIN
  unfold Vdu.colByte at hlo hhi ⊢
  unfold NCOL at hc ⊢
  rcases h with ⟨hm, hl, hn, hb⟩ | ⟨hm, hl, hn, hb⟩ | ⟨hm, hl, hn, hb⟩
  all_goals
    rw [hl] at hk
    rw [hn] at hr ⊢
    rw [hm] at hhi ⊢
    rw [hb]
    simp only [if_true, Bool.false_eq_true, if_false, true_and, false_and, or_false, reduceCtorEq,
      false_implies, and_true, true_implies] at hhi ⊢
  · omega
  · omega
  · split_ifs at hhi ⊢ <;> omega

/-- Where a character of the screen is written. -/
theorem Vdu.Lines.cell_in (h : v.Lines) (hr : 0 ≤ r ∧ r < v.nrow) (hc : 0 ≤ c ∧ c < NCOL) :
    Cell InVideoRam v (v.charAt r c) := by
  have hnot : ∀ {a}, (InVideoRam a ∨ c = NCOL ∧ r = v.nrow - 1 ∧
      (a = VIDEORAM ∨ v.mono = false ∧ a = VIDEORAM + 2)) → InVideoRam a := fun ha =>
    ha.resolve_right fun hbeyond => hc.2.ne hbeyond.1
  intro k hk
  obtain ⟨hfirst, hsecond⟩ := h.cell hr ⟨hc.1, hc.2.le⟩ k hk
  exact ⟨hnot hfirst, fun hmono => hnot (hsecond hmono)⟩

/-- What is cleared between two points: the rest of the first line, lines, and the start of the last
one. -/
theorem clrarea_wrote {r₁ c₁ r₂ c₂ : ℤ} (hc : 0 ≤ c₁)
    (hfirst : ∀ c, c₁ ≤ c → c < max (c₁ + 1) NCOL → Cell A v (v.charAt r₁ c))
    (hrow : ∀ r, r₁ ≤ r → r ≤ r₂ → Row A v r)
    (hlast : ∀ r c, (r₁ ≤ r₂ → r = r₂) → 0 ≤ c → c ≤ c₂ → Cell A v (v.charAt r c)) :
    Wrote A v (clrarea r₁ c₁ r₂ c₂ v) := by
  -- The writes of the three loops, up to but not including `r` and `c`.
  have hloops : ∀ r c : ℤ, (∀ j, r₁ ≤ j → j < r → Row A v j) →
      (∀ j c', (r₁ ≤ r → j = r) → 0 ≤ c' → c' < c → Cell A v (v.charAt j c')) →
      ∀ rest : Prop, [Decidable rest] → (rest → r₁ < r) → Wrote A v
        (forUp (if rest then 0 else c₁) (c - if rest then 0 else c₁)
          (clrchar (max (if rest then r₁ + 1 else r₁) r))
          (forUp (if rest then r₁ + 1 else r₁) (r - if rest then r₁ + 1 else r₁) clrline
            (if rest then forUp c₁ (max 1 (NCOL - c₁)) (clrchar r₁) v else v))) := by
    intro r c hrow hlast rest _ hrest
    have hstart : Wrote A v (if rest then forUp c₁ (max 1 (NCOL - c₁)) (clrchar r₁) v else v) := by
      split_ifs
      · refine forUp_wrote fun j hj hj' w hw => clrchar_wrote ?_
        rw [hw.cell, hw.charAt]
        exact hfirst j hj (by omega)
      · exact Wrote.refl v
    have hlines := hstart.trans (@forUp_wrote A _ (if rest then r₁ + 1 else r₁)
      (r - if rest then r₁ + 1 else r₁) clrline fun j hj hj' w hw => clrline_wrote (by
        rw [hw.row, hstart.row]
        split_ifs at hj <;> exact hrow j (by omega) (by omega)))
    refine hlines.trans (forUp_wrote fun j hj hj' w hw => clrchar_wrote ?_)
    rw [hw.cell, hw.charAt, hlines.cell, hlines.charAt]
    split_ifs at hj hj' ⊢ with hyes
    · exact hlast _ j (fun _ => max_eq_right (hrest hyes)) hj (by omega)
    · exact hlast _ j (fun hle => max_eq_right hle) (hc.trans hj) (by omega)
  unfold clrarea
  dsimp only
  by_cases hwraps : c₂ + 1 = NCOL
  · simp only [if_pos hwraps]
    refine hloops (r₂ + 1) 0 (fun j hj hj' => hrow j hj (by omega)) (fun j c' _ hc' hc'' => ?_)
      (c₁ > 0 ∧ r₁ < r₂ + 1) fun h => h.2
    omega
  · simp only [if_neg hwraps]
    exact hloops r₂ (c₂ + 1) (fun j hj hj' => hrow j hj (by omega))
      (fun j c' hj hc' hc'' => hlast j c' hj hc' (by omega)) (c₁ > 0 ∧ r₁ < r₂) fun h => h.2

/-! ## What each part of the driver does -/

/-- The display is in order, and only `A` is written. -/
structure Done (A : ℤ → Prop) (v v' : Vdu) : Prop where
  inv : v'.Inv
  frame : ∀ a, ¬A a → v'.mem a = v.mem a

theorem Done.trans (h : Done A v w) (h' : Done A w v') : Done A v v' :=
  ⟨h'.inv, fun a ha => (h'.frame a ha).trans (h.frame a ha)⟩

theorem Done.mono (h : Done A v v') (hab : ∀ a, A a → B a) : Done B v v' :=
  ⟨h.inv, fun a ha => h.frame a fun hA => ha (hab a hA)⟩

theorem Wrote.done (hw : Wrote A v v') (h : v.Inv) : Done A v v' := by
  refine ⟨?_, hw.frame⟩
  rw [hw.same]
  exact ⟨h.lines, h.mono, h.cursor, h.saved, h.curs⟩

/-- Neither the cursor nor the video RAM has changed. -/
def Tinted (v v' : Vdu) : Prop := v' = { v with
  attr := v'.attr
  next := v'.next
  vd_rgb := v'.vd_rgb
  keypad := v'.keypad
  app_mode := v'.app_mode
  xtabs := v'.xtabs
  crmod := v'.crmod }

theorem Tinted.trans (h : Tinted v w) (h' : Tinted w v') : Tinted v v' := by
  unfold Tinted at h h' ⊢
  rw [h', h]

theorem Tinted.done (ht : Tinted v v') (h : v.Inv) : Done A v v' := by
  unfold Tinted at ht
  constructor
  · rw [ht]
    exact ⟨h.lines, h.mono, h.cursor, h.saved, h.curs⟩
  · intro a _
    rw [ht]

theorem Vdu.Lines.nrow_le (h : v.Lines) : 0 < v.nrow ∧ v.nrow ≤ if v.mono then 50 else 25 := by
  rcases h with ⟨hm, -, hn, -⟩ | ⟨hm, -, hn, -⟩ | ⟨hm, -, hn, -⟩
  all_goals
    rw [hm, hn]
    decide

/-- The cursor is moved to a place of the screen. -/
theorem moveto_inv (hl : v.Lines) (hm : v.mono = v.res_high) (hs : CursorOk v.mono v.savcrow v.savccol)
    (hr : 0 ≤ r ∧ r < v.nrow) (hc : 0 ≤ c ∧ c ≤ NCOL) : (moveto r c v).Inv := by
  have hin : ¬(r < 0 ∨ r ≥ v.nrow ∨ c < 0 ∨ c > NCOL) := by omega
  have hn := hl.nrow_le
  unfold moveto
  rw [if_neg hin]
  refine ⟨hl, hm, ⟨⟨hr.1, hr.2.trans_le hn.2⟩, hc⟩, hs, r, if c = NCOL then c - 1 else c, hr, ?_, rfl⟩
  unfold NCOL at hc ⊢
  split_ifs <;> omega

theorem moveto_done (h : v.Inv) : Done A v (moveto r c v) := by
  by_cases hout : r < 0 ∨ r ≥ v.nrow ∨ c < 0 ∨ c > NCOL
  · unfold moveto
    rw [if_pos hout]
    exact ⟨h, fun _ _ => rfl⟩
  · refine ⟨moveto_inv h.lines h.mono h.saved (by omega) (by omega), fun a _ => ?_⟩
    unfold moveto
    rw [if_neg hout]

/-- The cursor is shown in the video RAM. -/
theorem Vdu.Inv.cell (h : v.Inv) : Cell InVideoRam v v.curs := by
  obtain ⟨r, c, hr, hc, hcurs⟩ := h.curs
  rw [hcurs]
  exact h.lines.cell_in hr hc

/-- The first plane is changed where the cursor is shown. -/
theorem first_wrote {p : Prop} [Decidable p] {f : ℕ → Vdu → UInt8} (h : v.Inv) :
    Wrote InVideoRam v (if p then v.scan v.curs f else v) := by
  split_ifs
  · exact scan_wrote fun k hk => (h.cell k hk).1
  · exact Wrote.refl v

/-- The second plane is changed where the cursor is shown. -/
theorem second_wrote {p : Prop} [Decidable p] {f : ℕ → Vdu → UInt8} (h : v.Inv)
    (hw : Wrote InVideoRam v w) :
    Wrote InVideoRam v (if w.mono = false ∧ p then w.scan (w.curs + 2) f else w) := by
  split_ifs with hmono
  · refine hw.trans (scan_wrote fun k hk => ?_)
    rw [show w.curs = v.curs by rw [hw.same]]
    exact (hw.cell.mpr h.cell k hk).2 hmono.1
  · exact hw

theorem paint_done (h : v.Inv) (c : ℕ) : Done InVideoRam v (paint fonts c v) :=
  (second_wrote h (first_wrote h)).done h

theorem vducursor_done (h : v.Inv) : Done InVideoRam v (vducursor v) :=
  (second_wrote h (first_wrote h)).done h

theorem lineFeed_done (h : v.Inv) : Done InVideoRam v (lineFeed v) := by
  unfold lineFeed
  split_ifs with hlast
  · have hn := h.lines.nrow_le
    have hscroll : Wrote InVideoRam v (forUp 0 (v.nrow - 1) (fun i => cpyline (i + 1) i) v) :=
      forUp_wrote fun j hj hj' w hw => cpyline_wrote
        (hw.row.mpr (h.lines.row ⟨by omega, by omega⟩))
    refine (hscroll.trans (clrline_wrote ?_)).done h
    exact hscroll.row.mpr (h.lines.row ⟨by omega, by omega⟩)
  · exact moveto_done h

theorem newLine_done (h : v.Inv) : Done InVideoRam v (newLine v) := by
  unfold newLine
  split_ifs
  · have hmove := @moveto_done InVideoRam v v.crow 0 h
    exact hmove.trans (lineFeed_done hmove.inv)
  · exact lineFeed_done h

theorem insertLines_done (h : v.Inv) {i : ℤ} (hi : 0 < i) : Done InVideoRam v (insertLines i v) := by
  have hrow := h.cursor.row.1
  have hn := h.lines.nrow_le
  unfold insertLines
  dsimp only
  generalize hn : (if i > v.nrow - v.crow then v.nrow - v.crow else i) = n
  have hle : n ≤ v.nrow - v.crow ∧ 0 ≤ v.crow + n := by
    rw [← hn]
    split_ifs <;> omega
  have hcopy : Wrote InVideoRam v (forDown (v.nrow - 1) (v.nrow - (v.crow + n))
      (fun j => cpyline (j - n) j) v) := forDown_wrote fun j hj hj' w hw => cpyline_wrote
    (hw.row.mpr (h.lines.row ⟨by omega, by omega⟩))
  refine (hcopy.trans (forDown_wrote fun j hj hj' w hw => clrline_wrote ?_)).done h
  exact hw.row.mpr (hcopy.row.mpr (h.lines.row ⟨by omega, by omega⟩))

theorem deleteLines_done (h : v.Inv) {i : ℤ} (hi : 0 < i) : Done InVideoRam v (deleteLines i v) := by
  have hrow := h.cursor.row.1
  have hn := h.lines.nrow_le
  unfold deleteLines
  dsimp only
  generalize hn : (if i > v.nrow - v.crow then v.nrow - v.crow else i) = n
  have hle : n ≤ v.nrow - v.crow ∧ (0 ≤ n ∨ n = v.nrow - v.crow) := by
    rw [← hn]
    split_ifs <;> omega
  have hcopy : Wrote InVideoRam v
      (forUp v.crow (v.nrow - n - v.crow) (fun j => cpyline (j + n) j) v) :=
    forUp_wrote fun j hj hj' w hw => cpyline_wrote
      (hw.row.mpr (h.lines.row ⟨by omega, by omega⟩))
  refine (hcopy.trans (forUp_wrote fun j hj hj' w hw => clrline_wrote ?_)).done h
  exact hw.row.mpr (hcopy.row.mpr (h.lines.row ⟨by omega, by omega⟩))

/-- What may be written while the cursor is on a line of the screen. -/
def Vdu.Written (v : Vdu) (a : ℤ) : Prop := v.crow < v.nrow → InVideoRam a ∨ v.Beyond a

theorem written_of_in {a : ℤ} (h : InVideoRam a) : v.Written a := fun _ => .inl h

/-- A character of a line that is not behind the cursor's may be written. -/
theorem Vdu.Inv.written_cell (h : v.Inv) (hr : v.crow < v.nrow → 0 ≤ r ∧ r < v.nrow)
    (hc : 0 ≤ c ∧ c ≤ NCOL) (hend : v.crow < v.nrow → c = NCOL → v.ccol = NCOL ∧ r = v.crow) :
    Cell v.Written v (v.charAt r c) := by
  intro k hk
  have hmem : ∀ {a}, (v.crow < v.nrow → InVideoRam a ∨ c = NCOL ∧ r = v.nrow - 1 ∧
      (a = VIDEORAM ∨ v.mono = false ∧ a = VIDEORAM + 2)) → v.Written a := fun ha hon => by
    refine (ha hon).imp id fun hbeyond => ?_
    obtain ⟨hcol, hrow⟩ := hend hon hbeyond.1
    exact ⟨hcol, hrow ▸ hbeyond.2.1, hbeyond.2.2⟩
  exact ⟨hmem fun hon => (h.lines.cell (hr hon) hc k hk).1,
    fun hmono => hmem fun hon => (h.lines.cell (hr hon) hc k hk).2 hmono⟩

/-- A line of the screen may be written. -/
theorem Vdu.Inv.written_row (h : v.Inv) (hr : v.crow < v.nrow → 0 ≤ r ∧ r < v.nrow) :
    Row v.Written v r := fun k hk hon => .inl (h.lines.row (hr hon) k hk)

/-- What is erased between two points up to the cursor, or from the cursor on. -/
theorem clrarea_done (h : v.Inv) {r₁ c₁ r₂ c₂ : ℤ} (hw : Wrote v.Written v w)
    (hc : 0 ≤ c₁ ∧ c₁ ≤ NCOL ∧ c₂ ≤ NCOL)
    (hr : v.crow < v.nrow → 0 ≤ r₁ ∧ r₁ ≤ r₂ ∧ r₂ < v.nrow)
    (hfirst : c₁ = NCOL → v.ccol = NCOL ∧ r₁ = v.crow)
    (hlast : c₂ = NCOL → v.ccol = NCOL ∧ r₂ = v.crow) :
    Done v.Written v (clrarea r₁ c₁ r₂ c₂ w) := by
  refine (hw.trans (clrarea_wrote hc.1 ?_ ?_ ?_)).done h
  · intro c hle hlt
    rw [hw.cell, hw.charAt]
    exact h.written_cell (fun hon => by have := hr hon; omega) (by omega) fun _ hend =>
      hfirst (by omega)
  · intro r hle hle'
    rw [hw.row]
    exact h.written_row fun hon => by have := hr hon; omega
  · intro r c heq hle hle'
    rw [hw.cell, hw.charAt]
    exact h.written_cell (fun hon => by have := hr hon; omega) (by omega) fun hon hend => by
      have hfit := hr hon
      have hr₂ := heq (by omega)
      have := hlast (by omega)
      omega

/-- Characters of the line of the cursor are moved, and others are erased. -/
theorem chars_done (h : v.Inv) {n : ℤ} {src dst : ℤ → ℤ} {c₁ c₂ : ℤ}
    (hdst : ∀ j, 0 ≤ j → j < n → 0 ≤ dst j ∧ dst j < NCOL) (hc : 0 ≤ c₁ ∧ c₁ ≤ NCOL ∧ c₂ < NCOL)
    (hfirst : c₁ = NCOL → v.ccol = NCOL) :
    Done v.Written v (clrarea v.crow c₁ v.crow c₂
      (forDown (n - 1) n (fun j => cpychar v.crow (src j) v.crow (dst j)) v)) := by
  have hrow := h.cursor.row.1
  refine clrarea_done h (forDown_wrote fun j hj hj' w hw => cpychar_wrote ?_) ⟨hc.1, hc.2.1, hc.2.2.le⟩
    (fun hon => ⟨hrow, le_rfl, hon⟩) (fun hend => ⟨hfirst hend, rfl⟩)
    fun hend => absurd hend hc.2.2.ne
  rw [hw.cell, hw.charAt]
  have hplace := hdst j (by omega) (by omega)
  exact h.written_cell (fun hon => ⟨hrow, hon⟩) ⟨hplace.1, hplace.2.le⟩ fun _ hend =>
    absurd hend hplace.2.ne

theorem insertChars_done (h : v.Inv) {i : ℤ} (hi : 0 < i) : Done v.Written v (insertChars i v) := by
  have hcol := h.cursor.col
  unfold insertChars
  dsimp only
  generalize hn : (if i > NCOL - v.ccol then NCOL - v.ccol else i) = n
  have hle : n ≤ NCOL - v.ccol ∧ 0 ≤ n := by
    rw [← hn]
    split_ifs <;> omega
  exact chars_done h (fun j hj hj' => by omega) (by omega) id

theorem deleteChars_done (h : v.Inv) {i : ℤ} (hi : 0 < i) : Done v.Written v (deleteChars i v) := by
  have hcol := h.cursor.col
  unfold deleteChars
  dsimp only
  generalize hn : (if i > NCOL - v.ccol then NCOL - v.ccol else i) = n
  have hle : n ≤ NCOL - v.ccol ∧ 0 ≤ n ∧ (n = 0 → v.ccol = NCOL) := by
    rw [← hn]
    split_ifs <;> omega
  exact chars_done h (fun j hj hj' => by omega) (by
    have hncol : NCOL = 80 := rfl
    omega) fun hend => hle.2.2 (by omega)

/-- The screen gets other lines, and the cursor is moved to its last one. -/
theorem relined_done (h : v.Inv) {linc nrow byt : ℤ} (hl : (v.lines linc nrow byt).Lines) :
    Done A v (moveto ((v.lines linc nrow byt).nrow - 1) 0 (v.lines linc nrow byt)) := by
  have hn := hl.nrow_le
  refine ⟨moveto_inv hl h.mono h.saved (by omega) ⟨le_rfl, by decide⟩, fun a _ => ?_⟩
  unfold moveto
  split_ifs <;> rfl

theorem minixSt_done {j : ℤ} {l : List ℕ} (h : v.Inv) : Done A v (minixSt j l v) := by
  have hfirst : ∀ {w : Vdu} {linc nrow byt : ℤ} {p : Prop} [Decidable p], w.Inv →
      (p → (w.lines linc nrow byt).Lines) → Done A w (if p then
        moveto ((w.lines linc nrow byt).nrow - 1) 0 (w.lines linc nrow byt) else w) := by
    intro w linc nrow byt p _ hw hl
    split_ifs with hp
    · exact relined_done hw (hl hp)
    · exact ⟨hw, fun _ _ => rfl⟩
  have h25 : Done A v (if j = 0 ∧ v.mono then
      moveto ((v.lines 16 (M_LIN_SCR / 16) M_BYT_LIN).nrow - 1) 0
        (v.lines 16 (M_LIN_SCR / 16) M_BYT_LIN) else v) :=
    hfirst h fun hj => .inl ⟨hj.2, rfl, show M_LIN_SCR / 16 = 25 by decide,
      show M_BYT_LIN * 16 = 1280 by decide⟩
  unfold minixSt
  dsimp only
  generalize (if j = 0 ∧ v.mono then _ else v) = w at h25 ⊢
  have h50 : Done A w (if j = 1 ∧ w.mono then
      moveto ((w.lines 8 (M_LIN_SCR / 8) M_BYT_LIN).nrow - 1) 0
        (w.lines 8 (M_LIN_SCR / 8) M_BYT_LIN) else w) :=
    hfirst h25.inv fun hj => .inr (.inl ⟨hj.2, rfl, show M_LIN_SCR / 8 = 50 by decide,
      show M_BYT_LIN * 8 = 640 by decide⟩)
  refine h25.trans ?_
  generalize (if j = 1 ∧ w.mono then _ else w) = u at h50 ⊢
  refine h50.trans (Tinted.done ?_ h50.inv)
  split_ifs <;> rfl

theorem tinted_rendition {j : ℤ} : Tinted v (rendition j v) := by
  unfold rendition
  split_ifs <;> rfl

theorem tinted_renditions {j : ℤ} {l : List ℕ} : Tinted v (renditions fuel j l v) := by
  induction fuel generalizing j l v with
  | zero => exact tinted_rendition
  | succ fuel ih =>
    unfold renditions
    dsimp only
    split_ifs
    · exact tinted_rendition.trans ih
    · exact tinted_rendition

theorem tinted_setMode {l : List ℕ} {c : ℕ} : Tinted v (setMode c l v) := by
  unfold setMode
  split_ifs <;> rfl

/-- What a sequence may write, and that the display is in order after it. -/
theorem vduansi_done (h : v.Inv) (c : ℕ) (buf : List ℕ) : Done v.Written v (vduansi c buf v) := by
  have hrow := h.cursor.row.1
  have hcol := h.cursor.col
  have hn := h.lines.nrow_le
  have hsub : ∀ {w}, Done InVideoRam v w → Done v.Written v w := fun hd =>
    hd.mono fun a => written_of_in
  have herase : ∀ {r₁ c₁ r₂ c₂ : ℤ}, 0 ≤ c₁ ∧ c₁ ≤ NCOL ∧ c₂ ≤ NCOL →
      (v.crow < v.nrow → 0 ≤ r₁ ∧ r₁ ≤ r₂ ∧ r₂ < v.nrow) →
      (c₁ = NCOL → v.ccol = NCOL ∧ r₁ = v.crow) → (c₂ = NCOL → v.ccol = NCOL ∧ r₂ = v.crow) →
      Done v.Written v (clrarea r₁ c₁ r₂ c₂ v) := clrarea_done h (Wrote.refl v)
  unfold vduansi
  dsimp only
  generalize hi : (if (vduparam buf).1 ≤ 0 then 1 else (vduparam buf).1) = i
  have hpos : 0 < i := by
    rw [← hi]
    split_ifs <;> omega
  split
  case h_7 =>
    split_ifs
    · exact herase ⟨hcol.1, hcol.2, by decide⟩ (fun hon => ⟨hrow, by omega, by omega⟩)
        (fun hend => ⟨hend, rfl⟩) fun hend => absurd hend (by decide)
    · exact herase ⟨le_rfl, by decide, hcol.2⟩ (fun hon => ⟨le_rfl, hrow, hon⟩)
        (fun hend => absurd hend (by decide)) fun hend => ⟨hend, rfl⟩
    · exact herase ⟨le_rfl, by decide, by decide⟩ (fun hon => ⟨le_rfl, by omega, by omega⟩)
        (fun hend => absurd hend (by decide)) fun hend => absurd hend (by decide)
    · exact ⟨h, fun _ _ => rfl⟩
  case h_8 =>
    split_ifs
    · exact herase ⟨hcol.1, hcol.2, by decide⟩ (fun hon => ⟨hrow, le_rfl, hon⟩)
        (fun hend => ⟨hend, rfl⟩) fun hend => absurd hend (by decide)
    · exact herase ⟨le_rfl, by decide, hcol.2⟩ (fun hon => ⟨hrow, le_rfl, hon⟩)
        (fun hend => absurd hend (by decide)) fun hend => ⟨hend, rfl⟩
    · exact herase ⟨le_rfl, by decide, by decide⟩ (fun hon => ⟨hrow, le_rfl, hon⟩)
        (fun hend => absurd hend (by decide)) fun hend => absurd hend (by decide)
    · exact ⟨h, fun _ _ => rfl⟩
  case h_9 => exact tinted_renditions.done h
  case h_10 => exact hsub (insertLines_done h hpos)
  case h_11 => exact hsub (deleteLines_done h hpos)
  case h_12 => exact insertChars_done h hpos
  case h_13 => exact deleteChars_done h hpos
  case h_14 => exact tinted_setMode.done h
  case h_15 => exact tinted_setMode.done h
  case h_16 => exact minixSt_done h
  case h_17 => exact ⟨h, fun _ _ => rfl⟩
  all_goals exact moveto_done h

/-- The display is initialised for the monitor. -/
theorem vduinit_done (hm : v.res_high = false → v.mono = false)
    (hs : CursorOk v.res_high v.savcrow v.savccol) : Done InVideoRam v (vduinit v) := by
  obtain ⟨w, hw, hl, hmono, hhigh, hsaved, hmem⟩ : ∃ w : Vdu, vduinit v = vducursor
      (clrarea 0 0 ((moveto 0 0 w).nrow - 1) (NCOL - 1) (moveto 0 0 w)) ∧ w.Lines ∧
      w.mono = w.res_high ∧ w.res_high = v.res_high ∧
      (w.savcrow = v.savcrow ∧ w.savccol = v.savccol) ∧ w.mem = v.mem := by
    unfold vduinit
    cases hhigh : v.res_high with
    | true =>
      refine ⟨_, rfl, .inl ⟨rfl, rfl, ?_, ?_⟩, hhigh.symm, hhigh, ⟨rfl, rfl⟩, rfl⟩
      · exact (by decide : M_LIN_SCR / FONTM = 25)
      · exact (by decide : M_BYT_LIN * FONTM = 1280)
    | false =>
      refine ⟨_, rfl, .inr (.inr ⟨hm hhigh, rfl, ?_, ?_⟩), (hm hhigh).trans hhigh.symm, hhigh,
        ⟨rfl, rfl⟩, rfl⟩
      · exact (by decide : C_LIN_SCR / FONTC = 25)
      · exact (by decide : C_BYT_LIN * FONTC = 1280)
  have hn := hl.nrow_le
  have hinv : (moveto 0 0 w).Inv := by
    refine moveto_inv hl hmono ?_ ⟨le_rfl, hn.1⟩ ⟨le_rfl, by decide⟩
    rwa [hsaved.1, hsaved.2, hmono, hhigh]
  have hmove : (moveto 0 0 w).mem = v.mem := by
    rw [← hmem]
    unfold moveto
    split_ifs <;> rfl
  rw [hw]
  generalize moveto 0 0 w = u at hinv hmove ⊢
  have hn := hinv.lines.nrow_le
  have hclear : Wrote InVideoRam u (clrarea 0 0 (u.nrow - 1) (NCOL - 1) u) := by
    refine clrarea_wrote le_rfl (fun c hc hc' => ?_) (fun r hr hr' => ?_) fun r c hr hc hc' => ?_
    · exact hinv.lines.cell_in ⟨le_rfl, hn.1⟩ ⟨hc, hc'⟩
    · exact hinv.lines.row ⟨hr, by omega⟩
    · exact hinv.lines.cell_in (by rw [hr (by omega)]; omega) ⟨hc, by omega⟩
  have hall := (hclear.done hinv).trans (vducursor_done (hclear.done hinv).inv)
  exact ⟨hall.inv, fun a ha => (hall.frame a ha).trans (congrFun hmove a)⟩

theorem vduesc_done (h : v.Inv) (c₀ : ℕ) : Done InVideoRam v (vduesc c₀ v) := by
  have hn := h.lines.nrow_le
  unfold vduesc
  dsimp only
  split
  case h_1 =>
    -- The cursor is restored, even to a line that the screen has no longer.
    have hrestored : Done InVideoRam v { v with
        ccol := v.savccol
        crow := v.savcrow
        attr := v.savattr } := ⟨⟨h.lines, h.mono, h.saved, h.saved, h.curs⟩, fun _ _ => rfl⟩
    exact hrestored.trans (moveto_done hrestored.inv)
  case h_2 => exact ⟨⟨h.lines, h.mono, h.cursor, h.cursor, h.curs⟩, fun _ _ => rfl⟩
  case h_5 =>
    have hmove := @moveto_done InVideoRam v v.crow 0 h
    exact hmove.trans (newLine_done hmove.inv)
  case h_6 => exact newLine_done h
  case h_7 =>
    split_ifs
    · have hscroll : Wrote InVideoRam v
          (forDown (v.nrow - 1) (v.nrow - 1) (fun i => cpyline (i - 1) i) v) :=
        forDown_wrote fun j hj hj' w hw => cpyline_wrote
          (hw.row.mpr (h.lines.row ⟨by omega, by omega⟩))
      refine (hscroll.trans (clrline_wrote ?_)).done h
      exact hscroll.row.mpr (h.lines.row ⟨le_rfl, hn.1⟩)
    · exact moveto_done h
  case h_8 =>
    have hinit := vduinit_done (v := v) (fun hhigh => h.mono.trans hhigh) (h.mono ▸ h.saved)
    have hcursor := hinit.trans (vducursor_done hinit.inv)
    exact hcursor.trans (Tinted.done rfl hcursor.inv)
  all_goals exact ⟨⟨h.lines, h.mono, h.cursor, h.saved, h.curs⟩, fun _ _ => rfl⟩

/-- The next character is collected. -/
theorem collected_done {next : Option (List ℕ)} (h : v.Inv) : Done A v { v with next := next } :=
  Tinted.done rfl h

theorem outGraphic_done (h : v.Inv) (c : ℕ) : Done v.Written v (outGraphic fonts c v) := by
  unfold outGraphic
  dsimp only
  generalize (if c &&& 0x80 ≠ 0 then c &&& 0x1F else c) = c
  split
  · have hpaint := @paint_done v fonts h c
    exact (hpaint.trans (moveto_done hpaint.inv)).mono fun a => written_of_in
  · split_ifs
    · exact collected_done h
    · exact collected_done h
    · have hesc := fun c₀ => (vduesc_done h c₀).mono fun a => @written_of_in v a
      exact (hesc _).trans (collected_done (hesc _).inv)
    · exact collected_done h
    · have hansi := vduansi_done h c
      exact (hansi _).trans (collected_done (hansi _).inv)
    · exact collected_done h
    · exact collected_done h

/-- A space writes at the cursor only. -/
theorem space_done (h : v.Inv) : Done InVideoRam v (outGraphic fonts 0o40 v) := by
  unfold outGraphic
  have hspace : (if 0o40 &&& 0x80 ≠ 0 then 0o40 &&& 0x1F else 0o40) = 32 := by decide
  dsimp only
  rw [hspace]
  split
  · have hpaint := @paint_done v fonts h 32
    exact hpaint.trans (moveto_done hpaint.inv)
  · simp only [Nat.reduceEqDiff, and_false, if_false, ge_iff_le, Nat.reduceLeDiff, false_and]
    exact collected_done h

/-- A tab does not move the cursor: the cursor is not on a line, or the spaces are collected. -/
def Vdu.Stuck (v : Vdu) : Prop := v.nrow ≤ v.crow ∨ v.xtabs = true ∧ v.next ≠ none

/-- One place of a tab: the cursor is moved to the right, unless it is behind the last column. -/
structure Hop (v w : Vdu) : Prop where
  stuck : w.Stuck ↔ v.Stuck
  stays : v.Stuck → w.ccol = v.ccol
  moves : ¬v.Stuck → w.ccol = if v.ccol = NCOL then v.ccol else v.ccol + 1

theorem moveto_hop (h : v.Inv) (hx : v.xtabs = true → v.next = none) :
    Hop v (moveto v.crow (v.ccol + 1) v) := by
  have hrow := h.cursor.row.1
  have hcol := h.cursor.col
  have hstuck : v.Stuck ↔ v.nrow ≤ v.crow := or_iff_left fun hnext => hnext.2 (hx hnext.1)
  unfold moveto
  by_cases hout : v.crow < 0 ∨ v.crow ≥ v.nrow ∨ v.ccol + 1 < 0 ∨ v.ccol + 1 > NCOL
  · rw [if_pos hout]
    refine ⟨Iff.rfl, fun _ => rfl, fun hon => (if_pos ?_).symm⟩
    have := mt hstuck.mpr hon
    omega
  · rw [if_neg hout]
    refine ⟨Iff.rfl, fun hyes => ?_, fun _ => (if_neg (by omega)).symm⟩
    have := hstuck.mp hyes
    omega

theorem space_hop (h : v.Inv) (hx : v.xtabs = true) : Hop v (outGraphic fonts 0o40 v) := by
  unfold outGraphic
  have hspace : (if 0o40 &&& 0x80 ≠ 0 then 0o40 &&& 0x1F else 0o40) = 32 := by decide
  dsimp only
  rw [hspace]
  split
  next hnext =>
    have hpaint : Wrote InVideoRam v (paint fonts 32 v) := second_wrote h (first_wrote h)
    have hinv := (hpaint.done h).inv
    rw [hpaint.same] at hinv ⊢
    have hhop := moveto_hop hinv fun _ => hnext
    exact ⟨hhop.stuck, hhop.stays, hhop.moves⟩
  next seq hnext =>
    have hstuck : v.Stuck := .inr ⟨hx, hnext ▸ Option.some_ne_none seq⟩
    simp only [Nat.reduceEqDiff, and_false, if_false, ge_iff_le, Nat.reduceLeDiff, false_and]
    exact ⟨iff_of_true (.inr ⟨hx, Option.some_ne_none _⟩) hstuck, fun _ => rfl,
      fun hnot => absurd hstuck hnot⟩

/-- A tab is one place, and then what is left of it. -/
theorem tab_succ (h : v.Inv) : ∃ w, Done InVideoRam v w ∧ Hop v w ∧
    ∀ fuel, tab fonts (fuel + 1) v =
      if w.ccol % (TAB_MASK + 1) ≠ 0 then tab fonts fuel w else some w := by
  refine ⟨_, ?_, ?_, fun _ => rfl⟩
  · split_ifs
    · exact space_done h
    · exact moveto_done h
  · split_ifs with hx
    · exact space_hop h hx
    · exact moveto_hop h fun hyes => absurd hyes hx

theorem tab_done (h : v.Inv) (hrun : tab fonts fuel v = some v') : Done InVideoRam v v' := by
  induction fuel generalizing v with
  | zero => exact absurd hrun.symm (Option.some_ne_none v')
  | succ fuel ih =>
    obtain ⟨w, hstep, -, htab⟩ := @tab_succ v fonts h
    rw [htab] at hrun
    split_ifs at hrun
    · exact hstep.trans (ih hstep.inv hrun)
    · rwa [← Option.some.inj hrun]

/-- A tab that does not move the cursor is done only where the cursor need not be moved. -/
theorem tab_stuck (h : v.Inv) (hs : v.Stuck) (hc : v.ccol % 8 ≠ 0) : tab fonts fuel v = none := by
  induction fuel generalizing v with
  | zero => rfl
  | succ fuel ih =>
    obtain ⟨w, hstep, hhop, htab⟩ := @tab_succ v fonts h
    have hcol : w.ccol % 8 ≠ 0 := by rwa [hhop.stays hs]
    rw [htab, if_pos (show w.ccol % (TAB_MASK + 1) ≠ 0 from hcol)]
    exact ih hstep.inv (hhop.stuck.mpr hs) hcol

/-- Any other tab is done. -/
theorem tab_returns (h : v.Inv) (hmove : v.Stuck → v.ccol % 8 = 0) :
    ∃ fuel v', tab fonts fuel v = some v' := by
  -- The cursor comes nearer to the last column.
  induction hn : (NCOL - v.ccol).toNat using Nat.strong_induction_on generalizing v with
  | h n ih =>
    obtain ⟨w, hstep, hhop, htab⟩ := @tab_succ v fonts h
    by_cases hend : w.ccol % (TAB_MASK + 1) ≠ 0
    · have hnot : ¬v.Stuck := fun hs => hend ((hhop.stays hs).symm ▸ hmove hs)
      have hcol := hhop.moves hnot
      have hwcol := hstep.inv.cursor.col
      have hlt : v.ccol ≠ NCOL ∧ w.ccol = v.ccol + 1 := by
        split_ifs at hcol with hlast
        · rw [hcol, hlast] at hend
          exact absurd (by decide) hend
        · exact ⟨hlast, hcol⟩
      obtain ⟨fuel, v', hdone⟩ := ih (NCOL - w.ccol).toNat (by omega) hstep.inv
        (fun hs => absurd (hhop.stuck.mp hs) hnot) rfl
      exact ⟨fuel + 1, v', by rw [htab, if_pos hend, hdone]⟩
    · exact ⟨1, w, by rw [htab, if_neg hend]⟩

theorem outChar_done (h : v.Inv) {c : ℕ} (hrun : outChar fonts fuel c v = some v') :
    Done v.Written v v' := by
  have hsub : ∀ {w}, Done InVideoRam v w → Done v.Written v w := fun hd =>
    hd.mono fun a => written_of_in
  unfold outChar at hrun
  by_cases hdel : c = 0x7F
  · rw [if_pos hdel] at hrun
    rw [← Option.some.inj hrun]
    exact ⟨h, fun _ _ => rfl⟩
  rw [if_neg hdel] at hrun
  by_cases hctrl : c &&& 0o140 = 0
  · rw [if_pos hctrl] at hrun
    unfold vductrl at hrun
    split_ifs at hrun
    rotate_left
    · exact hsub (tab_done h hrun)
    all_goals rw [← Option.some.inj hrun]
    · exact hsub (newLine_done h)
    · exact hsub (lineFeed_done h)
    · exact moveto_done h
    · exact collected_done h
    · exact collected_done h
    · exact ⟨h, fun _ _ => rfl⟩
    · exact moveto_done h
  · rw [if_neg hctrl] at hrun
    rw [← Option.some.inj hrun]
    exact outGraphic_done h c

/-- The display is in order in every run. -/
theorem vdu_inv (hreach : Reachable VduStart (VduStep fonts) v) : v.Inv := by
  refine hreach.invariant ?_ ?_
  · rintro v ⟨v₀, rfl, hmono, hrow, hcol⟩
    refine (vduinit_done (fun _ => hmono) ?_).inv
    rw [hrow, hcol]
    exact ⟨⟨le_rfl, by split_ifs <;> decide⟩, le_rfl, by decide⟩
  · rintro v a v' hinv hstep
    cases hstep with
    | char fuel c h => exact (outChar_done hinv h).inv
    | cursor => exact (vducursor_done hinv).inv
    | ioctl xtabs crmod => exact ⟨hinv.lines, hinv.mono, hinv.cursor, hinv.saved, hinv.curs⟩

/-- In every run, a character that is sent while the cursor is on a line of the screen changes the
video RAM only, but for what is erased behind the last column of the last line. On a color screen the
cursor is always on a line. -/
theorem outChar_writes (hreach : Reachable VduStart (VduStep fonts) v) {c : ℕ}
    (h : outChar fonts fuel c v = some v') : (v.mono = false → v.crow < v.nrow) ∧
      (v.crow < v.nrow → ∀ a, v'.mem a ≠ v.mem a → InVideoRam a ∨ v.Beyond a) := by
  have hinv := vdu_inv hreach
  refine ⟨fun hcolor => ?_, fun hon a hchanged => ?_⟩
  · have hrow := hinv.cursor.row.2
    rw [hcolor] at hrow
    rcases hinv.lines with ⟨hm, -⟩ | ⟨hm, -⟩ | ⟨-, -, hn, -⟩
    · exact absurd (hm.symm.trans hcolor) Bool.noConfusion
    · exact absurd (hm.symm.trans hcolor) Bool.noConfusion
    · rwa [hn]
  · by_contra hnot
    exact hchanged ((outChar_done hinv h).frame a fun hwritten => hnot (hwritten hon))

/-- The display of a monochrome monitor before the system starts. -/
def vduZero : Vdu where
  curs := 0
  linc := 0
  nrow := 0
  bytr := 0
  mono := false
  attr := 0
  ccol := 0
  crow := 0
  savattr := 0
  savccol := 0
  savcrow := 0
  next := none
  res_high := true
  vd_rgb := fun _ => 0
  keypad := false
  app_mode := false
  xtabs := true
  crmod := true
  mem := fun _ => 0

def blankFonts : Fonts := ⟨fun _ => 0, fun _ => 0⟩

theorem vduZero_start : Reachable VduStart (VduStep fonts) (vduinit vduZero) :=
  ⟨_, [], ⟨vduZero, rfl, rfl, rfl, rfl⟩, .nil⟩

/-- The first line feed. -/
theorem outChar_writes_lineFeed :
    ((vduinit vduZero).mono = false → (vduinit vduZero).crow < (vduinit vduZero).nrow) ∧
      ((vduinit vduZero).crow < (vduinit vduZero).nrow →
        ∀ a, (newLine (vduinit vduZero)).mem a ≠ (vduinit vduZero).mem a →
          InVideoRam a ∨ (vduinit vduZero).Beyond a) :=
  @outChar_writes _ _ blankFonts 0 vduZero_start 0o12 rfl

/-- In every run, the driver is done with a character that is sent, but for a tab that does not move
the cursor to a multiple of 8: the task then never returns. -/
theorem outChar_returns (hreach : Reachable VduStart (VduStep fonts) v) (c : ℕ) :
    (∃ fuel v', outChar fonts fuel c v = some v') ↔ ¬(c = 0o11 ∧ v.ccol % 8 ≠ 0 ∧
      (v.nrow ≤ v.crow ∨ v.xtabs = true ∧ v.next ≠ none)) := by
  have hinv := vdu_inv hreach
  by_cases htab : c = 0o11
  · subst htab
    have hrun : ∀ fuel, outChar fonts fuel 0o11 v = tab fonts fuel v := fun _ => rfl
    simp only [hrun, true_and]
    constructor
    · rintro ⟨fuel, v', hdone⟩ ⟨hcol, hs⟩
      rw [tab_stuck hinv hs hcol] at hdone
      exact Option.some_ne_none v' hdone.symm
    · intro hnot
      exact tab_returns hinv fun hs => by_contra fun hcol => hnot ⟨hcol, hs⟩
  · refine iff_of_true ⟨0, ?_⟩ fun hall => htab hall.1
    unfold outChar vductrl
    rw [if_neg htab]
    split_ifs
    all_goals exact ⟨_, rfl⟩

/-- The first tab. -/
theorem outChar_returns_tab : (∃ fuel v', outChar blankFonts fuel 0o11 (vduinit vduZero) = some v') ↔
    ¬(0o11 = 0o11 ∧ (vduinit vduZero).ccol % 8 ≠ 0 ∧
      ((vduinit vduZero).nrow ≤ (vduinit vduZero).crow ∨
        (vduinit vduZero).xtabs = true ∧ (vduinit vduZero).next ≠ none)) :=
  outChar_returns vduZero_start 0o11

end Minix.Kernel
