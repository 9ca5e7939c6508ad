import Mathlib.Tactic.MkIffOfInductiveProp
import Minix.Kernel.Tty
import Minix.Lib.Ring

/-!
# The input ring of a terminal

What is put into the input queue and taken out of it is a history of a queue (`replay`): what is
erased is the last character, what is read is in front. `InputRing` says that the ring holds what is
left by that history, and that the readers have got what has been read.

One thing breaks this: `in_char` tests once for room, and a character behind a backslash that
escapes nothing is stored with the backslash (`Overflows`). `input_ring` is about the runs in which
this does not happen when there is room for one character only.
-/

namespace Minix.Kernel

open Lib

/-- The characters that wait and those that have been read, after an event. -/
def replay : List UInt8 × List UInt8 → TtyEvent → Option (List UInt8 × List UInt8)
  | (q, out), .accept ch => some (q ++ [ch], out)
  | (q, out), .erase ch => if q.getLast? = some ch then some (q.dropLast, out) else none
  | (q, out), .read taken given =>
    -- The marker of an end of file is not given to the reader.
    if taken <+: q ∧ (given = taken ∨ taken = given ++ [MARKER]) then
      some (q.drop taken.length, out ++ given)
    else none
  | (_, out), .discard => some ([], out)

theorem replay_read {q out taken given : List UInt8}
    (h : taken <+: q ∧ (given = taken ∨ taken = given ++ [MARKER])) :
    replay (q, out) (.read taken given) = some (q.drop taken.length, out ++ given) := if_pos h

/-- What is in the input queue. -/
def Tty.contents (t : Tty) : List UInt8 :=
  ringList TTY_IN_BYTES t.tty_inqueue t.tty_intail t.tty_incount.toNat

/-- The input queue of a terminal is in order, and readers have got `out`. -/
structure InputRing (t : Tty) (out : List UInt8) : Prop where
  count_nonneg : 0 ≤ t.tty_incount
  count_le : t.tty_incount ≤ TTY_IN_BYTES
  head : (t.tty_inhead : ℤ) = (t.tty_intail + t.tty_incount) % TTY_IN_BYTES
  kept : t.log.foldlM replay ([], []) = some (t.contents, out)

/-- A terminal at boot. -/
structure Tty.Init (t : Tty) : Prop where
  head : t.tty_inhead = 0
  tail : t.tty_intail = 0
  count : t.tty_incount = 0
  log : t.log = []

/-- There is room for one character only, and the character that arrives is stored behind the
backslash in front of it. -/
@[mk_iff]
structure Tty.Overflows (t : Tty) (ch : UInt8) : Prop where
  count : t.tty_incount = TTY_IN_BYTES - 1
  cooked : t.inputMode = COOKED
  escaped : t.tty_escaped = true
  /-- The backslash escapes nothing. -/
  plain : ch &&& 0o177 ≠ t.tty_erase ∧ ch &&& 0o177 ≠ t.tty_kill ∧ ch &&& 0o177 ≠ t.tty_eof
  /-- The character is neither one for a signal nor one that stops the output or starts it. -/
  stored : (t.mapCr (ch &&& 0o177) ≠ t.tty_intr ∧ t.mapCr (ch &&& 0o177) ≠ t.tty_quit) ∧
    t.mapCr (ch &&& 0o177) ≠ t.tty_xoff ∧ t.tty_inhibited = false

/-- The character of an action overflows the queue. -/
def Tty.Bursts (t : Tty) : TtyAct → Prop
  | .char ch _ => t.Overflows ch
  | _ => False

/-- Several actions, with the characters that the readers get. -/
def Tty.run : Tty → List TtyAct → List UInt8 × Tty
  | t, [] => ([], t)
  | t, a :: as =>
    let (given, t) := t.act a
    let (more, t) := Tty.run t as
    (given ++ more, t)

theorem Tty.run_cons {t : Tty} {a : TtyAct} {as : List TtyAct} :
    t.run (a :: as) = ((t.act a).1 ++ ((t.act a).2.run as).1, ((t.act a).2.run as).2) := rfl

/-- No action overflows the queue. -/
def Tty.Careful : Tty → List TtyAct → Prop
  | _, [] => True
  | t, a :: as => ¬ t.Bursts a ∧ Tty.Careful (t.act a).2 as

/-! ## The queue in the ring -/

/-- The ring holds a queue, in the places from the tail to the head. -/
structure Rings (t : Tty) (q : List UInt8) : Prop where
  count : t.tty_incount = q.length
  tail : t.tty_intail < TTY_IN_BYTES
  head : t.tty_inhead = (t.tty_intail + q.length) % TTY_IN_BYTES
  cells : ringList TTY_IN_BYTES t.tty_inqueue t.tty_intail q.length = q

/-- The ring holds a queue, which is what the log leaves. -/
structure Keeps (t : Tty) (q out : List UInt8) : Prop where
  count : t.tty_incount = q.length
  room : q.length ≤ TTY_IN_BYTES
  tail : t.tty_intail < TTY_IN_BYTES
  head : t.tty_inhead = (t.tty_intail + q.length) % TTY_IN_BYTES
  cells : ringList TTY_IN_BYTES t.tty_inqueue t.tty_intail q.length = q
  log : t.log.foldlM replay ([], []) = some (q, out)

section Basic

variable {t t' : Tty} {q out : List UInt8} {ch : UInt8}

theorem Rings.contents (h : Rings t q) : t.contents = q := by
  unfold Tty.contents
  rw [h.count, Int.toNat_natCast, h.cells]

theorem Keeps.rings (h : Keeps t q out) : Rings t q := ⟨h.count, h.tail, h.head, h.cells⟩

theorem Rings.keeps (h : Rings t q) (hroom : q.length ≤ TTY_IN_BYTES)
    (hlog : t.log.foldlM replay ([], []) = some (q, out)) : Keeps t q out :=
  ⟨h.count, hroom, h.tail, h.head, h.cells, hlog⟩

theorem Keeps.inputRing (h : Keeps t q out) : InputRing t out where
  count_nonneg := by
    rw [h.count]
    exact Int.natCast_nonneg _
  count_le := by
    rw [h.count]
    exact_mod_cast h.room
  head := by
    rw [h.count, h.head]
    push_cast
    rfl
  kept := by rw [h.rings.contents, h.log]

theorem Tty.Init.rings (h : t.Init) : Rings t [] where
  count := h.count
  tail := by
    rw [h.tail]
    decide
  head := by rw [h.head, h.tail]; rfl
  cells := rfl

theorem Tty.Init.keeps (h : t.Init) : Keeps t [] [] :=
  h.rings.keeps (Nat.zero_le _) (by rw [h.log]; rfl)

/-- The fields that the ring is about. -/
def Tty.ring (t : Tty) : (ℕ → UInt8) × ℕ × ℕ × ℤ × List TtyEvent :=
  (t.tty_inqueue, t.tty_inhead, t.tty_intail, t.tty_incount, t.log)

/-- Other fields do not matter. -/
theorem Rings.congr (h : Rings t q) (e : t'.ring = t.ring) : Rings t' q := by
  simp only [Tty.ring, Prod.mk.injEq] at e
  obtain ⟨hqueue, hhead, htail, hcount, -⟩ := e
  constructor
  · rw [hcount, h.count]
  · rw [htail]
    exact h.tail
  · rw [hhead, htail, h.head]
  · rw [hqueue, htail, h.cells]

theorem Keeps.congr (h : Keeps t q out) (e : t'.ring = t.ring) : Keeps t' q out := by
  refine (h.rings.congr e).keeps h.room ?_
  simp only [Tty.ring, Prod.mk.injEq] at e
  rw [e.2.2.2.2, h.log]

/-- One event more. -/
theorem foldlM_replay {log : List TtyEvent} {s : List UInt8 × List UInt8} {e : TtyEvent}
    (h : log.foldlM replay ([], []) = some s) :
    (log ++ [e]).foldlM replay ([], []) = replay s e := by
  rw [List.foldlM_append, h]
  simp

theorem nextPlace_eq {p : ℕ} (h : p < TTY_IN_BYTES) : nextPlace p = (p + 1) % TTY_IN_BYTES := by
  unfold nextPlace
  split
  · next heq => rw [heq, Nat.mod_self]
  · next hne =>
    have hlt : p + 1 < TTY_IN_BYTES := by omega
    rw [Nat.mod_eq_of_lt hlt]

theorem prevPlace_eq {p n : ℕ} :
    prevPlace ((p + (n + 1)) % TTY_IN_BYTES) = (p + n) % TTY_IN_BYTES := by
  unfold prevPlace
  by_cases hz : (p + (n + 1)) % TTY_IN_BYTES = 0
  · rw [if_neg (not_not.mpr hz)]
    unfold TTY_IN_BYTES at *
    omega
  · rw [if_pos hz]
    unfold TTY_IN_BYTES at *
    omega

/-! ## What changes the queue -/

/-- A character that there is room for is appended. -/
theorem Rings.save (h : Rings t q) (hroom : q.length < TTY_IN_BYTES) :
    Rings (t.save ch) (q ++ [ch]) where
  count := by
    show t.tty_incount + 1 = _
    rw [h.count, List.length_append]
    push_cast
    rfl
  tail := h.tail
  head := by
    show nextPlace t.tty_inhead = (t.tty_intail + _) % TTY_IN_BYTES
    rw [h.head, nextPlace_eq (Nat.mod_lt _ (by decide)), Nat.mod_add_mod, List.length_append,
      List.length_singleton, Nat.add_assoc]
  cells := by
    show ringList _ (Function.update t.tty_inqueue t.tty_inhead ch) t.tty_intail _ = _
    rw [h.head, List.length_append, List.length_singleton, ringList_push hroom, h.cells]

theorem Keeps.save (h : Keeps t q out) (hroom : q.length < TTY_IN_BYTES) :
    Keeps (t.save ch) (q ++ [ch]) out := by
  refine (h.rings.save hroom).keeps ?_ (foldlM_replay h.log)
  rw [List.length_append]
  exact hroom

theorem rings_discard : Rings t.discard [] where
  count := rfl
  tail := by
    show 0 < TTY_IN_BYTES
    decide
  head := rfl
  cells := rfl

theorem Keeps.discard (h : Keeps t q out) : Keeps t.discard [] out :=
  rings_discard.keeps (Nat.zero_le _) (foldlM_replay h.log)

theorem Keeps.sigchar (h : Keeps t q out) : Keeps (sigchar t) [] out := by
  have h' : Keeps { t with
      tty_inhibited := false
      tty_outleft := 0 } q out := h.congr rfl
  exact h'.discard

/-- The last character is taken back. -/
theorem Rings.chuck (h : Rings t q) (hc : chuck t = some t') :
    ∃ front ch, q = front ++ [ch] ∧ (ch ≠ LF ∧ ch ≠ CR) ∧ Rings t' front ∧
      t' = { t with
        tty_inhead := prevPlace t.tty_inhead
        tty_incount := t.tty_incount - 1
        log := t.log ++ [.erase ch] } := by
  unfold Kernel.chuck at hc
  split at hc
  · cases hc
  next hne =>
    obtain rfl | ⟨front, ch, rfl⟩ := List.eq_nil_or_concat' q
    · exact absurd h.count hne
    have hlen : (front ++ [ch]).length = front.length + 1 := by simp
    have hhead := h.head
    rw [hlen] at hhead
    have hprev : prevPlace t.tty_inhead = (t.tty_intail + front.length) % TTY_IN_BYTES := by
      rw [hhead]
      exact prevPlace_eq
    have hcells := h.cells
    rw [hlen, ringList_succ] at hcells
    obtain ⟨hfront, hlast⟩ := List.append_inj' hcells rfl
    have hch : t.tty_inqueue (prevPlace t.tty_inhead) = ch := by
      rw [hprev]
      exact List.head_eq_of_cons_eq hlast
    dsimp only at hc
    rw [hch] at hc
    split at hc
    · cases hc
    next hend =>
      injection hc with hc
      refine ⟨front, ch, rfl, not_or.mp hend, ?_, hc.symm⟩
      subst hc
      constructor
      · show t.tty_incount - 1 = _
        rw [h.count, hlen]
        push_cast
        omega
      · exact h.tail
      · exact hprev
      · exact hfront

/-- Nothing is taken back from an empty queue, and neither is the end of a line. -/
theorem Rings.chuck_none (h : Rings t q) (hc : Kernel.chuck t = none) :
    q = [] ∨ ∃ front ch, q = front ++ [ch] ∧ (ch = LF ∨ ch = CR) := by
  obtain rfl | ⟨front, ch, rfl⟩ := List.eq_nil_or_concat' q
  · exact .inl rfl
  refine .inr ⟨front, ch, rfl, ?_⟩
  have hlen : (front ++ [ch]).length = front.length + 1 := by simp
  have hcells := h.cells
  rw [hlen, ringList_succ] at hcells
  have hch : t.tty_inqueue (prevPlace t.tty_inhead) = ch := by
    rw [h.head, hlen, prevPlace_eq]
    exact List.head_eq_of_cons_eq (List.append_inj' hcells rfl).2
  have hne : t.tty_incount ≠ 0 := by
    rw [h.count, hlen]
    omega
  unfold Kernel.chuck at hc
  rw [if_neg hne] at hc
  dsimp only at hc
  rw [hch] at hc
  by_contra hend
  rw [if_neg hend] at hc
  cases hc

theorem Keeps.chuck (h : Keeps t q out) (hc : Kernel.chuck t = some t') :
    ∃ ch, q = q.dropLast ++ [ch] ∧ Keeps t' q.dropLast out := by
  obtain ⟨front, ch, rfl, -, hrings, hlog⟩ := h.rings.chuck hc
  refine ⟨ch, by simp, ?_⟩
  rw [List.dropLast_concat]
  refine hrings.keeps ?_ ?_
  · have := h.room
    rw [List.length_append, List.length_singleton] at this
    omega
  · rw [hlog]
    dsimp only
    rw [foldlM_replay h.log]
    simp [replay]

theorem Keeps.chuckAll (h : Keeps t q out) : ∀ n, ∃ q', Keeps (chuckAll n t) q' out ∧
    q'.length ≤ q.length := by
  intro n
  induction n generalizing t q with
  | zero => exact ⟨q, h, le_rfl⟩
  | succ n ih =>
    unfold Kernel.chuckAll
    split
    · exact ⟨q, h, le_rfl⟩
    next t' hc =>
      obtain ⟨ch, hq, h'⟩ := h.chuck hc
      obtain ⟨q', hk, hle⟩ := ih h'
      refine ⟨q', hk, hle.trans ?_⟩
      rw [List.length_dropLast]
      exact Nat.sub_le _ _

/-! ## A character has been typed -/

/-- The last place is for the backslash that is in front of the character. -/
structure Tty.Behind (t : Tty) (ch : UInt8) (q : List UInt8) (t' : Tty) : Prop where
  last : q.length + 1 = TTY_IN_BYTES
  escaped : t.tty_escaped = true
  plain : ch ≠ t.tty_erase ∧ ch ≠ t.tty_kill ∧ ch ≠ t.tty_eof
  saved : t' = { t with tty_escaped := false }.save BACKSLASH

/-- A character that has been cooked finds room, or it is behind such a backslash. -/
theorem Keeps.cook (h : Keeps t q out) (hroom : q.length < TTY_IN_BYTES) :
    ∃ q', Keeps (t.cook ch).1 q' out ∧ ∀ c, (t.cook ch).2 = some c →
      q'.length < TTY_IN_BYTES ∨ (c = ch ∧ t.Behind ch q (t.cook ch).1) := by
  unfold Tty.cook
  dsimp only
  split_ifs with herase hkill hplain hback heof hesc
  · cases hc : Kernel.chuck t with
    | none => exact ⟨q, h, nofun⟩
    | some t' =>
      obtain ⟨_, _, h'⟩ := h.chuck hc
      exact ⟨q.dropLast, h', nofun⟩
  · obtain ⟨q', h', _⟩ := h.chuckAll t.tty_incount.toNat
    exact ⟨q', h', nofun⟩
  · exact ⟨q, h.congr rfl, nofun⟩
  · exact ⟨q, h.congr rfl, fun _ _ => .inl hroom⟩
  · exact ⟨q, h, fun _ _ => .inl hroom⟩
  · have h' : Keeps { t with tty_escaped := false } q out := h.congr rfl
    refine ⟨q ++ [BACKSLASH], h'.save hroom, ?_⟩
    intro c hc
    injection hc with hc
    have hescaped : t.tty_escaped = true := by simpa using hplain
    rw [List.length_append, List.length_singleton]
    by_cases hlast : q.length + 1 = TTY_IN_BYTES
    · exact .inr ⟨hc.symm, hlast, hescaped, hesc, rfl⟩
    · left
      omega
  · exact ⟨q, h.congr rfl, fun _ _ => .inl hroom⟩

/-- A control character leaves no character; the others change nothing. -/
theorem Keeps.control (h : Keeps t q out) (ch : UInt8) :
    (∃ q', Keeps (t.control ch).1 q' out ∧ (t.control ch).2 = none) ∨
      (t.control ch = (t, some ch) ∧
        (ch ≠ t.tty_intr ∧ ch ≠ t.tty_quit) ∧ ch ≠ t.tty_xoff ∧ t.tty_inhibited = false) := by
  unfold Tty.control
  split_ifs with hsig hxoff hinh
  · exact .inl ⟨[], h.sigchar, rfl⟩
  · exact .inl ⟨q, h.congr rfl, rfl⟩
  · exact .inl ⟨q, h.congr rfl, rfl⟩
  · refine .inr ⟨rfl, not_or.mp hsig, hxoff, ?_⟩
    simpa using hinh

theorem Keeps.enter (h : Keeps t q out) (hroom : q.length < TTY_IN_BYTES) :
    Keeps (t.enter ch) (q ++ [ch]) out := by
  unfold Tty.enter
  split
  · have h' : Keeps { t with tty_lfct := t.tty_lfct + 1 } q out := h.congr rfl
    exact h'.save hroom
  · exact h.save hroom

/-- What has been checked is entered, if it is behind a backslash in the last place only when the
queue overflows. -/
theorem Keeps.checked {c : UInt8} (h : Keeps t q out) (hroom : q.length < TTY_IN_BYTES)
    (hc : c = ch &&& 0o177) (hsafe : ¬ t.Overflows ch) : ∃ q', Keeps (t.checked c) q' out := by
  have hcook : ∃ q', Keeps (if t.inputMode = COOKED then t.cook c else (t, some c)).1 q' out ∧
      ∀ c', (if t.inputMode = COOKED then t.cook c else (t, some c)).2 = some c' →
        q'.length < TTY_IN_BYTES ∨ (c' = c ∧ t.inputMode = COOKED ∧
          t.Behind c q (if t.inputMode = COOKED then t.cook c else (t, some c)).1) := by
    split
    · next hmode =>
      obtain ⟨q', h', hsome⟩ := h.cook hroom
      refine ⟨q', h', fun c' hc' => ?_⟩
      exact (hsome c' hc').imp_right fun hb => ⟨hb.1, hmode, hb.2⟩
    · exact ⟨q, h, fun _ _ => .inl hroom⟩
  unfold Tty.checked
  generalize (if t.inputMode = COOKED then t.cook c else (t, some c)) = r at hcook ⊢
  obtain ⟨t', o⟩ := r
  obtain ⟨q', h', hsome⟩ := hcook
  cases o with
  | none => exact ⟨q', h'⟩
  | some c' =>
    dsimp only at h' hsome ⊢
    obtain ⟨q'', h'', hnone⟩ | ⟨hctl, hsig, hxoff, hinh⟩ := h'.control (t'.mapCr c')
    · generalize t'.control (t'.mapCr c') = r at h'' hnone ⊢
      obtain ⟨t'', o⟩ := r
      dsimp only at hnone
      subst hnone
      exact ⟨q'', h''⟩
    · rw [hctl]
      obtain hroom' | ⟨hcc, hmode, hbehind⟩ := hsome c' rfl
      · exact ⟨_, h'.enter hroom'⟩
      · -- The backslash has changed nothing that the control characters depend on.
        refine absurd ?_ hsafe
        rw [hcc, hbehind.saved, hc] at hsig hxoff
        rw [hbehind.saved] at hinh
        have hcount := h.count
        have hlast := hbehind.last
        have hplain := hbehind.plain
        rw [hc] at hplain
        exact ⟨by omega, hmode, hbehind.escaped, hplain, hsig, hxoff, hinh⟩

theorem Keeps.inChar (h : Keeps t q out) (hsafe : ¬ t.Overflows ch) :
    ∃ q', Keeps (inChar t ch) q' out := by
  unfold Kernel.inChar
  split
  · exact ⟨q, h⟩
  next hfull =>
    have hroom : q.length < TTY_IN_BYTES := by
      have := h.count
      omega
    dsimp only
    split
    · next hmode =>
      have hraw : t.inputMode ≠ RAW := by
        intro e
        rw [e] at hmode
        exact absurd hmode (by decide)
      rw [if_pos hraw]
      exact h.checked hroom rfl hsafe
    · exact ⟨_, h.enter hroom⟩

/-! ## Reading -/

/-- What the inner loop does: it takes characters at the tail, as long as it is told to. -/
structure Fills (f f' : Filling) (n k : ℕ) : Prop where
  bound : k ≤ n
  tty : ∃ lfct, f'.tty = { f.tty with
    tty_intail := (f.tty.tty_intail + k) % TTY_IN_BYTES
    tty_lfct := lfct }
  got : f'.got = f.got ++ ringList TTY_IN_BYTES f.tty.tty_inqueue f.tty.tty_intail k
  eot : f'.eot_seen = true → ∃ front, f'.got = front ++ [MARKER]
  some : 0 < n → 0 < k

theorem Fills.refl {f : Filling} (htail : f.tty.tty_intail < TTY_IN_BYTES)
    (heot : f.eot_seen = true → ∃ front, f.got = front ++ [MARKER]) : Fills f f 0 0 where
  bound := le_rfl
  tty := ⟨f.tty.tty_lfct, by rw [Nat.add_zero, Nat.mod_eq_of_lt htail]⟩
  got := by rw [ringList_zero, List.append_nil]
  eot := heot
  some := id

/-- One character, and then others. -/
theorem Fills.cons {f f₁ f' : Filling} {n k : ℕ} {lfct : ℤ} (hn : f.tty.tty_intail < TTY_IN_BYTES)
    (htty : f₁.tty = { f.tty with
      tty_intail := nextPlace f.tty.tty_intail
      tty_lfct := lfct })
    (hgot : f₁.got = f.got ++ [f.tty.tty_inqueue f.tty.tty_intail]) (h : Fills f₁ f' n k) :
    Fills f f' (n + 1) (k + 1) where
  bound := Nat.succ_le_succ h.bound
  tty := by
    obtain ⟨lfct', e⟩ := h.tty
    refine ⟨lfct', ?_⟩
    rw [e, htty, nextPlace_eq hn]
    dsimp only
    rw [Nat.mod_add_mod, Nat.add_assoc, Nat.add_comm 1 k]
  got := by
    rw [h.got, hgot, htty, ringList_pop hn, List.append_assoc, List.singleton_append]
    dsimp only
    rw [nextPlace_eq hn]
  eot := h.eot
  some := fun _ => Nat.succ_pos k

theorem fills (cooked : Bool) (n : ℕ) (f : Filling) (htail : f.tty.tty_intail < TTY_IN_BYTES)
    (heot : f.eot_seen = false) : ∃ k, Fills f (fill cooked n f) n k := by
  induction n generalizing f with
  | zero => exact ⟨0, .refl htail (by rw [heot]; nofun)⟩
  | succ n ih =>
    have hnext : nextPlace f.tty.tty_intail < TTY_IN_BYTES := by
      rw [nextPlace_eq htail]
      exact Nat.mod_lt _ (by decide)
    unfold fill
    dsimp only
    split
    · next hend =>
      split
      · -- A line of cooked mode ends here, by a line feed or by the marker.
        next hcooked =>
        have hlast : Fills _ _ 0 0 := .refl (f := ⟨{ f.tty with
          tty_intail := nextPlace f.tty.tty_intail
          tty_lfct := f.tty.tty_lfct - 1 }, f.got ++ [f.tty.tty_inqueue f.tty.tty_intail],
          f.eot_seen || f.tty.tty_inqueue f.tty.tty_intail = MARKER, true⟩) hnext (by
            rw [heot]
            intro e
            have hmarker : f.tty.tty_inqueue f.tty.tty_intail = MARKER := by simpa using e
            exact ⟨f.got, by rw [hmarker]⟩)
        have hone := hlast.cons htail rfl rfl
        exact ⟨1, Nat.succ_le_succ (Nat.zero_le n), hone.tty, hone.got, hone.eot,
          fun _ => Nat.one_pos⟩
      · next hraw =>
        have hne : f.tty.tty_inqueue f.tty.tty_intail ≠ MARKER := by
          obtain hlf | ⟨_, hcooked⟩ := hend
          · rw [hlf]
            decide
          · exact absurd hcooked hraw
        have heot' : (f.eot_seen || decide (f.tty.tty_inqueue f.tty.tty_intail = MARKER)) = false := by
          simp [heot, hne]
        obtain ⟨k, hk⟩ := ih ⟨{ f.tty with
          tty_intail := nextPlace f.tty.tty_intail
          tty_lfct := f.tty.tty_lfct - 1 }, f.got ++ [f.tty.tty_inqueue f.tty.tty_intail], _, true⟩
          hnext heot'
        exact ⟨k + 1, hk.cons htail rfl rfl⟩
    · obtain ⟨k, hk⟩ := ih ⟨{ f.tty with tty_intail := nextPlace f.tty.tty_intail },
        f.got ++ [f.tty.tty_inqueue f.tty.tty_intail], f.eot_seen, f.enough⟩ hnext heot
      exact ⟨k + 1, hk.cons htail rfl rfl⟩

/-- The characters of a buffer are in front of the queue. -/
theorem Rings.got {f : Filling} {n k : ℕ} (h : Rings t q) (hn : n ≤ q.length)
    (hf : Fills ⟨t, [], false, false⟩ f n k) : f.got = q.take k := by
  have hgot : f.got = ringList TTY_IN_BYTES t.tty_inqueue t.tty_intail k := hf.got
  obtain ⟨m, hm⟩ := Nat.exists_eq_add_of_le (hf.bound.trans hn)
  have hcells := h.cells
  rw [hm, ringList_add, ← hgot] at hcells
  have hlen : f.got.length = k := by rw [hgot, length_ringList]
  rw [← hcells, ← hlen, List.take_left]

/-- One buffer is taken from the front of the queue. -/
theorem Rings.copyBuffer {f : Filling} {n k : ℕ} (h : Rings t q) (hn : n ≤ q.length)
    (hf : Fills ⟨t, [], false, false⟩ f n k) : Rings (Kernel.copyBuffer f).1 (q.drop k) := by
  have hk : k ≤ q.length := hf.bound.trans hn
  obtain ⟨lfct, htty⟩ := hf.tty
  have hlen : f.got.length = k := by
    rw [h.got hn hf, List.length_take]
    omega
  obtain ⟨m, hm⟩ := Nat.exists_eq_add_of_le hk
  have hdrop : q.drop k = ringList TTY_IN_BYTES t.tty_inqueue
      ((t.tty_intail + k) % TTY_IN_BYTES) m := by
    have hcells := h.cells
    rw [hm, ringList_add] at hcells
    rw [← hcells, List.drop_append_of_le_length (by simp), List.drop_of_length_le (by simp),
      List.nil_append]
  constructor
  · show f.tty.tty_incount - f.got.length = _
    have hcount := h.count
    rw [htty, hlen, List.length_drop]
    dsimp only
    omega
  · show f.tty.tty_intail < _
    rw [htty]
    exact Nat.mod_lt _ (by decide)
  · show f.tty.tty_inhead = (f.tty.tty_intail + _) % TTY_IN_BYTES
    have hhead := h.head
    rw [htty, List.length_drop, Nat.mod_add_mod]
    dsimp only
    rw [hhead, Nat.add_assoc, Nat.add_sub_cancel' hk]
  · show ringList _ f.tty.tty_inqueue f.tty.tty_intail _ = _
    have hm' : q.length - k = m := by omega
    rw [htty, List.length_drop, hm', hdrop]

/-- One buffer is taken from the front of the queue, and goes to the reader. -/
theorem Keeps.copyBuffer {f : Filling} {n k : ℕ} (h : Keeps t q out) (hn : n ≤ q.length)
    (hf : Fills ⟨t, [], false, false⟩ f n k) :
    Keeps (Kernel.copyBuffer f).1 (q.drop k) (out ++ (Kernel.copyBuffer f).2) := by
  have hgiven : (Kernel.copyBuffer f).2 = f.got ∨ f.got = (Kernel.copyBuffer f).2 ++ [MARKER] := by
    unfold Kernel.copyBuffer
    dsimp only
    split
    · next heot =>
      obtain ⟨front, hfront⟩ := hf.eot heot
      right
      rw [hfront]
      simp
    · left
      rw [List.take_length]
  refine (h.rings.copyBuffer hn hf).keeps ?_ ?_
  · rw [List.length_drop]
    exact (Nat.sub_le _ _).trans h.room
  · have hgot := h.rings.got hn hf
    have hlen : f.got.length = k := by
      have := hf.bound
      rw [hgot, List.length_take]
      omega
    have hgone : f.got <+: q := by
      rw [hgot]
      exact List.take_prefix _ _
    obtain ⟨lfct, htty⟩ := hf.tty
    show (f.tty.log ++ [TtyEvent.read f.got (Kernel.copyBuffer f).2]).foldlM replay ([], []) = _
    rw [htty]
    dsimp only
    rw [foldlM_replay h.log, replay_read ⟨hgone, hgiven⟩, hlen]

/-- A buffer load. -/
theorem Keeps.load (h : Keeps t q out) (cooked : Bool) {n : ℕ} (hn : n ≤ q.length) :
    ∃ k, (0 < n → 0 < k) ∧ k ≤ n ∧
      (Kernel.copyBuffer (fill cooked n ⟨t, [], false, false⟩)).1.tty_inleft = t.tty_inleft - k ∧
      Keeps (Kernel.copyBuffer (fill cooked n ⟨t, [], false, false⟩)).1 (q.drop k)
        (out ++ (Kernel.copyBuffer (fill cooked n ⟨t, [], false, false⟩)).2) := by
  obtain ⟨k, hf⟩ := fills cooked n ⟨t, [], false, false⟩ h.tail rfl
  refine ⟨k, hf.some, hf.bound, ?_, h.copyBuffer hn hf⟩
  obtain ⟨lfct, htty⟩ := hf.tty
  show (fill cooked n ⟨t, [], false, false⟩).tty.tty_inleft - _ = _
  rw [htty, hf.got, List.nil_append, length_ringList]

theorem Keeps.rdLoop (h : Keeps t q out) (cooked : Bool) (n : ℕ) (given : List UInt8) :
    ∃ q' more, (Kernel.rdLoop cooked n t given).2 = given ++ more ∧
      Keeps (Kernel.rdLoop cooked n t given).1 q' (out ++ more) := by
  induction n generalizing t q out given with
  | zero => exact ⟨q, [], by simp [Kernel.rdLoop], by simpa [Kernel.rdLoop] using h⟩
  | succ n ih =>
    unfold Kernel.rdLoop
    dsimp only
    split
    · have hn : min (min t.tty_inleft t.tty_incount.toNat) TTY_BUF_SIZE ≤ q.length := by
        have := h.count
        omega
      obtain ⟨k, _, _, _, hload⟩ := h.load cooked hn
      generalize Kernel.copyBuffer (fill cooked (min (min t.tty_inleft t.tty_incount.toNat)
        TTY_BUF_SIZE) ⟨t, [], false, false⟩) = r at hload ⊢
      obtain ⟨t', got⟩ := r
      split
      · exact ⟨_, _, rfl, hload⟩
      · obtain ⟨q', more, hgiven, hk⟩ := ih hload (given ++ got)
        refine ⟨q', got ++ more, ?_, ?_⟩
        · rw [hgiven, List.append_assoc]
        · rw [← List.append_assoc]
          exact hk
    · exact ⟨q, [], by simp, by simpa using h⟩

theorem Keeps.rdChars (h : Keeps t q out) (mapped : Bool) :
    ∃ q', Keeps (Kernel.rdChars t mapped).2.2 q' (out ++ (Kernel.rdChars t mapped).2.1) := by
  unfold Kernel.rdChars
  dsimp only
  split
  · exact ⟨q, by simpa using h⟩
  split
  · exact ⟨q, by simpa using h⟩
  · obtain ⟨q', more, hgiven, hk⟩ := h.rdLoop _ t.tty_inleft []
    refine ⟨q', ?_⟩
    rw [hgiven, List.nil_append]
    exact hk.congr rfl

/-! ## What happens to a terminal -/

theorem Keeps.act (h : Keeps t q out) {a : TtyAct} (hsafe : ¬ t.Bursts a) :
    ∃ q', Keeps (t.act a).2 q' (out ++ (t.act a).1) := by
  cases a with
  | char ch mapped =>
    obtain ⟨q', h'⟩ := h.inChar hsafe
    show ∃ q', Keeps (charint t ch mapped).2 q' (out ++ (charint t ch mapped).1)
    unfold charint
    dsimp only
    split
    · exact h'.rdChars mapped
    · exact ⟨q', by simpa using h'⟩
  | read count mapped =>
    show ∃ q', Keeps (doRead t count mapped).2.2 q' (out ++ (doRead t count mapped).2.1)
    unfold doRead
    split
    · exact ⟨q, by simpa using h⟩
    · have h' : Keeps { t with tty_inleft := count } q out := h.congr rfl
      exact h'.rdChars mapped
  | cancel mode =>
    rw [show (t.act (.cancel mode)).1 = [] from rfl, List.append_nil]
    show ∃ q', Keeps (doCancel t mode) q' out
    unfold doCancel
    dsimp only
    split_ifs
    · exact ⟨q, h⟩
    · exact ⟨[], h.discard.congr rfl⟩
    · exact ⟨q, h.congr rfl⟩
    · exact ⟨[], h.discard.congr rfl⟩
    · exact ⟨q, h⟩
  | setp erase kill mode =>
    refine ⟨q, ?_⟩
    rw [show (t.act (.setp erase kill mode)).1 = [] from rfl, List.append_nil]
    exact h.congr rfl
  | setc intr quit xoff eof =>
    refine ⟨q, ?_⟩
    rw [show (t.act (.setc intr quit xoff eof)).1 = [] from rfl, List.append_nil]
    exact h.congr rfl
  | signal =>
    refine ⟨[], ?_⟩
    rw [show (t.act .signal).1 = [] from rfl, List.append_nil]
    exact h.sigchar
  | output outleft =>
    refine ⟨q, ?_⟩
    rw [show (t.act (.output outleft)).1 = [] from rfl, List.append_nil]
    exact h.congr rfl

theorem Keeps.run (h : Keeps t q out) {as : List TtyAct} (hsafe : t.Careful as) :
    ∃ q', Keeps (t.run as).2 q' (out ++ (t.run as).1) := by
  induction as generalizing t q out with
  | nil => exact ⟨q, by simpa [Tty.run] using h⟩
  | cons a as ih =>
    obtain ⟨hone, hrest⟩ := hsafe
    obtain ⟨q₁, h₁⟩ := h.act hone
    obtain ⟨q', h'⟩ := ih h₁ hrest
    refine ⟨q', ?_⟩
    rw [Tty.run_cons, ← List.append_assoc]
    exact h'

theorem Tty.Careful.left {as bs : List TtyAct} (h : t.Careful (as ++ bs)) : t.Careful as := by
  induction as generalizing t with
  | nil => trivial
  | cons a as ih => exact ⟨h.1, ih h.2⟩

/-- If no character overflows the queue, it is in order in every state of the run: the characters
that wait and those that have been read are the ones that the history of the queue tells. -/
theorem input_ring {as bs : List TtyAct} (hinit : t.Init) (hsafe : t.Careful as)
    (hbs : bs <+: as) : InputRing (t.run bs).2 (t.run bs).1 := by
  obtain ⟨cs, rfl⟩ := hbs
  obtain ⟨q, h⟩ := hinit.keeps.run hsafe.left
  exact h.inputRing

/-- A terminal in cooked mode, with the usual control characters. -/
def bootTty : Tty where
  tty_inqueue := fun _ => 0
  tty_inhead := 0
  tty_intail := 0
  tty_incount := 0
  tty_lfct := 0
  tty_mode := CRMOD
  tty_escaped := false
  tty_inhibited := false
  tty_erase := 8
  tty_kill := 64
  tty_intr := 127
  tty_quit := 28
  tty_xoff := 19
  tty_eof := 4
  tty_inleft := 0
  tty_outleft := 0
  log := []

/-- A reader waits for a line, a character is erased, and the line is read without it. -/
theorem input_ring_line :
    let line := [.read 4 true, .char 97 true, .char 98 true, .char 8 true, .char LF true]
    (bootTty.run line).1 = [97, LF] ∧ InputRing (bootTty.run line).2 [97, LF] := by
  have hout : (bootTty.run [.read 4 true, .char 97 true, .char 98 true, .char 8 true,
      .char LF true]).1 = [97, LF] := by decide +kernel
  refine ⟨hout, ?_⟩
  rw [← hout]
  refine input_ring ⟨rfl, rfl, rfl, rfl⟩ ?_ (List.prefix_refl _)
  refine ⟨id, ?_, ?_, ?_, ?_, trivial⟩ <;> exact fun h => absurd h.count (by decide +kernel)

/-- What `bootTty` is like when only characters have been put into its queue. -/
def filledTty (queue : ℕ → UInt8) (head : ℕ) (count : ℤ) (log : List TtyEvent) : Tty :=
  { bootTty with
    tty_inqueue := queue
    tty_inhead := head
    tty_incount := count
    log := log }

/-- Plain characters fill the queue. -/
theorem filledTty_run {n : ℕ} (as : List TtyAct) (queue : ℕ → UInt8) (head : ℕ) {count : ℤ}
    (log : List TtyEvent) (hcount : count + n ≤ TTY_IN_BYTES) :
    ∃ queue' head' log',
      (filledTty queue head count log).run (List.replicate n (.char 97 true) ++ as) =
        (filledTty queue' head' (count + n) log').run as := by
  induction n generalizing queue head count log with
  | zero => exact ⟨queue, head, log, by simp⟩
  | succ n ih =>
    have hroom : ¬ (filledTty queue head count log).tty_incount ≥ TTY_IN_BYTES := by
      show ¬ count ≥ TTY_IN_BYTES
      push_cast at hcount
      omega
    have hchar : inChar (filledTty queue head count log) 97 =
        filledTty (Function.update queue head 97) (nextPlace head) (count + 1)
          (log ++ [.accept 97]) := by
      unfold inChar
      rw [if_neg hroom]
      have hseven : (97 : UInt8) &&& 0o177 = 97 := by decide
      simp +decide [hseven, filledTty, bootTty, Tty.inputMode, Tty.checked, Tty.cook, Tty.mapCr,
        Tty.control, Tty.enter, Tty.save]
    have hact : (filledTty queue head count log).act (.char 97 true) =
        ([], filledTty (Function.update queue head 97) (nextPlace head) (count + 1)
          (log ++ [.accept 97])) := by
      show charint _ _ _ = _
      unfold charint
      rw [hchar]
      rfl
    have hcount' : count + 1 + n ≤ TTY_IN_BYTES := by
      push_cast at hcount
      omega
    obtain ⟨queue', head', log', hrun⟩ := ih (Function.update queue head 97) (nextPlace head)
      (log ++ [.accept 97]) hcount'
    refine ⟨queue', head', log', ?_⟩
    rw [List.replicate_succ, List.cons_append]
    have hcast : count + ((n + 1 : ℕ) : ℤ) = count + 1 + n := by
      push_cast
      omega
    rw [hcast, ← hrun, Tty.run_cons, hact]
    rfl

/-- With room for one character, a backslash and a character that it does not escape overflow the
queue. -/
theorem input_ring_overflow :
    ¬ ∀ t as, t.Init → InputRing (Tty.run t as).2 (Tty.run t as).1 := by
  intro h
  have hring := h bootTty (List.replicate 999 (.char 97 true) ++ [.char BACKSLASH true,
    .char 98 true]) ⟨rfl, rfl, rfl, rfl⟩
  obtain ⟨queue, head, log, hrun⟩ := @filledTty_run 999 [.char BACKSLASH true, .char 98 true]
    (fun _ => 0) 0 0 [] (by decide)
  have hrun' : bootTty.run _ = _ := hrun
  rw [hrun'] at hring
  have hover := hring.count_le
  -- The backslash is not in the queue yet; the character behind it puts both there.
  simp +decide [filledTty, bootTty, Tty.run, Tty.act, charint, inChar, Tty.inputMode,
    Tty.checked, Tty.cook, Tty.mapCr, Tty.control, Tty.enter, Tty.save] at hover

end Basic

end Minix.Kernel
