import Minix.Lib.Epoch
import Minix.Mm.Families

/-!
# What holds of families and their past

`Kin` is about the processes: the servers live, parents exist, and the slots in use are counted.
`Mourned` ties the deaths in the past to the processes that hang, and `Heard` the calls to the
processes that wait. Every event keeps them (`Kept.step`), and with them what is said of the past as
a whole.
-/

namespace Minix.Mm

open Lib

/-- The processes whose slots are in use. -/
def Family.slots (F : Family) : Finset ProcNr := Finset.univ.filter fun n => (F.member n).life ≠ .free

/-- The relations between processes. -/
structure Kin (F : Family) : Prop where
  servers : ∀ n ≤ INIT_PROC_NR, (F.member n).life = .live
  parents : ∀ n, (F.member n).life ≠ .free → (F.member (F.member n).parent).life ≠ .free
  selfless : ∀ n, INIT_PROC_NR < n → (F.member n).life ≠ .free → (F.member n).parent ≠ n
  plain : ∀ n, (F.member n).odd = false
  calm : ∀ n, (F.member n).life = .live → (F.member n).waiting = true → (F.member n).paused = false
  count : F.count = F.slots.card

/-- What is known of the deaths. -/
structure Mourned (A : Annals) : Prop where
  others : ∀ n, (A.fam.member n).life ≠ .zombie → death n A.hist = none
  dead : ∀ n, (A.fam.member n).life = .zombie → ∃ d, death n A.hist = some d ∧
    d.pid = (A.fam.member n).pid ∧ d.status = (A.fam.member n).status ∧
    (A.fam.member n).parent = (if d.orphan then INIT_PROC_NR else d.parent) ∧
    (d.alive = true → (A.fam.member (A.fam.member n).parent).waiting = true →
      (A.fam.member (A.fam.member n).parent).life = .live)
  reported : Reported A.hist

/-- What is known of the last call of a process, and of the replies to it. -/
structure HeardBy (A : Annals) (n : ProcNr) : Prop where
  busy : ∀ wait, A.busy = some (n, wait) → (A.fam.member n).life = .live ∧
    (A.fam.member n).waiting = false ∧ (A.fam.member n).paused = false ∧
    lastCall n A.hist = some wait ∧ answers n A.hist = []
  pending : (A.fam.member n).life = .live →
    (A.fam.member n).waiting = true ∨ (A.fam.member n).paused = true → answers n A.hist = []
  asked : (A.fam.member n).life = .live → (A.fam.member n).waiting = true →
    lastCall n A.hist = some true
  answered : (A.fam.member n).life = .live → (A.fam.member n).waiting = false →
    (A.fam.member n).paused = false → (∀ wait, A.busy ≠ some (n, wait)) → AnsweredOnce n A.hist
  atMost : (answers n A.hist).length ≤ 1 ∧
    (lastCall n A.hist = some true → ∀ e ∈ answers n A.hist, EndsWait e)

/-- What is known of the calls and the replies. -/
structure Heard (A : Annals) : Prop where
  each : ∀ n, HeardBy A n
  all : Answered A.hist

/-- A slot is released once, and not as long as it is in use, if a process has been created in it.
-/
structure SlotOnce (A : Annals) (n : ProcNr) : Prop where
  once : OncePer (.forked n) (.released n) (A.hist.filterMap FamEvent.slot)
  fresh : (A.fam.member n).life ≠ .free →
    times (.forked n) (.released n) (A.hist.filterMap FamEvent.slot) = 0
  gone : (A.fam.member n).life = .free → .forked n ∈ A.hist.filterMap FamEvent.slot →
    times (.forked n) (.released n) (A.hist.filterMap FamEvent.slot) = 1

/-- What is recorded has happened. -/
structure Recorded (A : Annals) : Prop where
  replies : A.hist.filterMap FamEvent.reply = A.fam.replies
  log : A.hist.filterMap FamEvent.logged = A.fam.log
  interrupted : Interrupted A.hist
  slots : ∀ n, SlotOnce A n

/-- What every event keeps. -/
structure Kept (A : Annals) : Prop where
  kin : Kin A.fam
  mourned : Mourned A
  heard : Heard A
  recorded : Recorded A

variable {A A' : Annals} {F F' : Family} {e : FamEvent} {n : ProcNr} {m : Member}

/-! ## The relations -/

/-- A process after an assignment. -/
theorem put_member (F : Family) (n x : ProcNr) (m : Member) :
    (F.put n m).member x = if x = n then m else F.member x := by
  simp [Family.put, Function.update_apply]

theorem mem_slots : n ∈ F.slots ↔ (F.member n).life ≠ .free := by
  simp [Family.slots]

/-- The relations are between processes; what is recorded does not matter. -/
theorem Kin.congr (h : Kin F) (hm : F'.member = F.member) (hc : F'.count = F.count) : Kin F' := by
  obtain ⟨member, count, log, replies⟩ := F
  obtain ⟨member', count', log', replies'⟩ := F'
  obtain rfl : member' = member := hm
  obtain rfl : count' = count := hc
  exact ⟨h.servers, h.parents, h.selfless, h.plain, h.calm, h.count⟩

/-- An assignment to a process that keeps its slot and its parent. -/
theorem Kin.put (h : Kin F) (hfree : m.life = .free ↔ (F.member n).life = .free)
    (hserver : n ≤ INIT_PROC_NR → m.life = .live) (hparent : m.parent = (F.member n).parent)
    (hodd : m.odd = false) (hcalm : m.life = .live → m.waiting = true → m.paused = false) :
    Kin (F.put n m) := by
  have hfree' : ∀ x, ((F.put n m).member x).life = .free ↔ (F.member x).life = .free := by
    intro x
    rw [put_member]
    split_ifs with hx
    · rw [hx, hfree]
    · rfl
  have hparent' : ∀ x, ((F.put n m).member x).parent = (F.member x).parent := by
    intro x
    rw [put_member]
    split_ifs with hx
    · rw [hx, hparent]
    · rfl
  refine ⟨fun x hx => ?_, fun x hx => ?_, fun x hx hl => ?_, fun x => ?_, fun x => ?_, ?_⟩
  · rw [put_member]
    split_ifs with hn
    · exact hserver (hn ▸ hx)
    · exact h.servers x hx
  · rw [ne_eq, hfree', hparent']
    rw [ne_eq, hfree'] at hx
    exact h.parents x hx
  · rw [hparent']
    rw [ne_eq, hfree'] at hl
    exact h.selfless x hx hl
  · rw [put_member]
    split_ifs
    · exact hodd
    · exact h.plain x
  · rw [put_member]
    split_ifs
    · exact hcalm
    · exact h.calm x
  · have hslots : (F.put n m).slots = F.slots := by
      ext x
      rw [mem_slots, mem_slots, ne_eq, ne_eq, hfree']
    rw [hslots]
    exact h.count

/-- A process is created. -/
theorem Kin.fork (h : Kin F) {child who : ProcNr} (pid : ℕ) (hchild : (F.member child).life = .free)
    (hwho : (F.member who).life = .live) (hcalm : (F.member who).waiting = false) :
    Kin (F.after (.fork child who pid)) := by
  have hne : who ≠ child := fun e => by
    rw [e, hchild] at hwho
    cases hwho
  refine ⟨fun x hx => ?_, fun x hx => ?_, fun x hx hl => ?_, fun x => ?_, fun x hx => ?_, ?_⟩ <;>
    simp only [Family.after, put_member] at *
  · have hs := h.servers x hx
    grind
  · have hp := h.parents x
    grind
  · have hf := h.selfless x hx
    grind
  · have ht := h.plain
    grind
  · have hc := h.calm x
    grind
  · -- The slot of the child was not in use.
    have hslots : (F.after (.fork child who pid)).slots = insert child F.slots := by
      ext x
      rw [Finset.mem_insert, mem_slots, mem_slots]
      simp only [Family.after, put_member]
      grind
    have hcard := congrArg Finset.card hslots
    rw [Finset.card_insert_of_notMem (by simp [mem_slots, hchild])] at hcard
    show F.count + 1 = ((F.after (.fork child who pid)).slots.card : ℤ)
    rw [hcard, h.count]
    push_cast
    rfl

/-- A slot is released. -/
theorem Kin.released (h : Kin F) {n parent : ProcNr} (sent : Bool) (pid : ℕ) (status : ℤ)
    (hn : (F.member n).life = .zombie) : Kin (F.after (.released n parent sent pid status)) := by
  have hinit := h.servers INIT_PROC_NR le_rfl
  have hne : INIT_PROC_NR < n := by
    by_contra hle
    have hs := h.servers n (not_lt.mp hle)
    rw [hn] at hs
    cases hs
  refine ⟨fun x hx => ?_, fun x hx => ?_, fun x hx hl => ?_, fun x => h.plain x, fun x hx => ?_, ?_⟩ <;>
    simp only [Family.after, Member.afterRelease] at *
  · have hs := h.servers x hx
    grind
  · have hp := h.parents x
    grind
  · have hf := h.selfless x hx
    grind
  · have hc := h.calm x
    grind
  · have hslots : (F.after (.released n parent sent pid status)).slots = F.slots.erase n := by
      ext x
      rw [Finset.mem_erase, mem_slots, mem_slots]
      simp only [Family.after, Member.afterRelease]
      grind
    have hmem : n ∈ F.slots := by
      rw [mem_slots, hn]
      decide
    have hcard := Finset.card_erase_add_one hmem
    rw [← hslots] at hcard
    show F.count - 1 = ((F.after (.released n parent sent pid status)).slots.card : ℤ)
    rw [h.count, ← hcard]
    push_cast
    omega

/-- An event keeps the relations. -/
theorem Kept.kin_next (h : Kept A) (hc : A.can e) : Kin (A.next e).fam := by
  have hk := h.kin
  have hput : ∀ {n m}, (A.fam.member n).life = .live → m.life = .live →
      m.parent = (A.fam.member n).parent → m.odd = (A.fam.member n).odd →
      (m.waiting = true → m.paused = false) → Kin (A.fam.put n m) := by
    intro n m hn hl hp ht hcalm
    refine hk.put ?_ (fun _ => hl) hp (ht.trans (hk.plain n)) fun _ => hcalm
    rw [hn, hl]
  cases e with
  | call who wait => exact hk
  | fork child who pid =>
    obtain ⟨hlive, hwait, -⟩ := (h.heard.each _).busy _ hc.1
    exact hk.fork pid hc.2 hlive hwait
  | mark n status catches => exact hput hc hc rfl rfl (hk.calm n hc)
  | died n parent alive pid status =>
    obtain ⟨hlive, hinit, -⟩ := hc
    have hzombie : Kin (A.fam.put n { A.fam.member n with life := .zombie, paused := false }) := by
      refine hk.put ?_ (fun hle => ?_) rfl (hk.plain n) fun _ _ => rfl
      · simp [hlive]
      · exact absurd hle (not_le.mpr hinit)
    exact hzombie.congr rfl rfl
  | released n parent sent pid status => exact hk.released sent pid status hc.1
  | waits who =>
    obtain ⟨hlive, -, hpause, -⟩ := (h.heard.each _).busy _ hc
    exact hput hlive hlive rfl rfl fun _ => hpause
  | pauses who =>
    obtain ⟨hlive, hwait, -⟩ := (h.heard.each _).busy _ hc
    exact hput hlive hlive rfl rfl fun hw => absurd (hwait.symm.trans hw) (by decide)
  | told who result res2 => exact hk.congr rfl rfl
  | caught n sig_nr => exact hput hc.1 hc.1 rfl rfl (hk.calm n hc.1)
  | interrupted n =>
    have hwoken : Kin (A.fam.put n { A.fam.member n with waiting := false, paused := false }) :=
      hput hc.1 hc.1 rfl rfl fun _ => rfl
    exact hwoken.congr rfl rfl

/-! ## The dead -/

/-- Events at which nobody dies, and no slot changes hands. -/
theorem Mourned.of_same (h : Mourned A)
    (hl : ∀ n, ((A.next e).fam.member n).life = (A.fam.member n).life ∧
      ((A.next e).fam.member n).parent = (A.fam.member n).parent ∧
      ((A.next e).fam.member n).pid = (A.fam.member n).pid)
    (hs : ∀ n, (A.fam.member n).life ≠ .live →
      ((A.next e).fam.member n).status = (A.fam.member n).status ∧
      ((A.next e).fam.member n).waiting = (A.fam.member n).waiting)
    (hd : ∀ n, death n (e :: A.hist) = death n A.hist) (hr : Reported (e :: A.hist)) :
    Mourned (A.next e) := by
  refine ⟨fun n hn => ?_, fun n hn => ?_, hr⟩
  · rw [(hl n).1] at hn
    exact (hd n).trans (h.others n hn)
  · rw [(hl n).1] at hn
    obtain ⟨d, hd', hpid, hstatus, hparent, halive⟩ := h.dead n hn
    refine ⟨d, (hd n).trans hd', ?_, ?_, ?_, fun ha => ?_⟩
    · rw [(hl n).2.2, hpid]
    · rw [(hs n (by simp [hn])).1, hstatus]
    · rw [(hl n).2.1, hparent]
    · rw [(hl n).2.1, (hl _).1]
      intro hwait
      by_contra hnot
      rw [(hs _ hnot).2] at hwait
      exact hnot (halive ha hwait)

/-- A process that lives is assigned to. -/
theorem Mourned.of_put (h : Mourned A) (hmember : (A.next e).fam.member = (A.fam.put n m).member)
    (hn : (A.fam.member n).life = .live)
    (hm : m.life = .live ∧ m.parent = (A.fam.member n).parent ∧ m.pid = (A.fam.member n).pid)
    (hd : ∀ n, death n (e :: A.hist) = death n A.hist) (hr : Reported (e :: A.hist)) :
    Mourned (A.next e) := by
  obtain ⟨hlife, hparent, hpid⟩ := hm
  refine h.of_same (fun x => ?_) (fun x hx => ?_) hd hr <;> rw [hmember, put_member]
  · split_ifs with hxn
    · rw [hxn, hlife, hn, hparent, hpid]
      exact ⟨rfl, rfl, rfl⟩
    · exact ⟨rfl, rfl, rfl⟩
  · have hxn : x ≠ n := fun e => hx (e ▸ hn)
    rw [if_neg hxn]
    exact ⟨rfl, rfl⟩

/-- A process dies. -/
theorem Mourned.died (h : Mourned A) {n parent : ProcNr} {alive : Bool} {pid : ℕ} {status : ℤ}
    (hk : Kin A.fam) (hc : A.can (.died n parent alive pid status)) :
    Mourned (A.next (.died n parent alive pid status)) := by
  obtain ⟨hlive, hinit, hparent, halive, hpid, hstatus, hwait⟩ := hc
  have hself := hk.selfless n hinit (by simp [hlive])
  refine ⟨fun x hx => ?_, fun x hx => ?_, h.reported⟩
  · have hnone := h.others x
    simp only [Annals.next, Family.after, put_member, death] at *
    grind
  · by_cases hxn : x = n
    · subst hxn
      refine ⟨⟨parent, alive, pid, status, false⟩, if_pos rfl, ?_⟩
      simp only [Annals.next, Family.after, put_member, if_true, if_neg hself]
      refine ⟨hpid, hstatus, by simp [hparent], fun ha _ => ?_⟩
      rw [← hparent]
      exact halive.mp ha
    · have hx' : (A.fam.member x).life = .zombie := by
        simpa [Annals.next, Family.after, put_member, hxn] using hx
      obtain ⟨d, hd, hpid', hstatus', hparent', halive'⟩ := h.dead x hx'
      have hw := hwait x hx'
      refine ⟨d, (if_neg fun e => hxn e.symm).trans hd, ?_⟩
      simp only [Annals.next, Family.after, put_member, if_neg hxn]
      refine ⟨hpid', hstatus', hparent', fun ha => ?_⟩
      split_ifs with hpx
      · -- The parent itself dies, and so did not wait.
        intro hwait'
        rw [hw hpx] at hwait'
        cases hwait'
      · exact halive' ha

/-- A slot is released. -/
theorem Mourned.released (h : Mourned A) {n parent : ProcNr} {sent : Bool} {pid : ℕ} {status : ℤ}
    (hk : Kin A.fam) (hc : A.can (.released n parent sent pid status)) (hbusy : ∀ who wait,
      A.busy = some (who, wait) → (A.fam.member who).life = .live) :
    Mourned (A.next (.released n parent sent pid status)) := by
  obtain ⟨hzombie, hparent, hsent, hpid, hstatus, hwait⟩ := hc
  have hinit := hk.servers INIT_PROC_NR le_rfl
  refine ⟨fun x hx => ?_, fun x hx => ?_, ?_⟩
  · have hnone := h.others x
    simp only [Annals.next, Family.after, Member.afterRelease, death] at *
    grind
  · have hxn : x ≠ n := fun e => by
      simp [Annals.next, Family.after, Member.afterRelease, e] at hx
    have hx' : (A.fam.member x).life = .zombie := by
      simpa [Annals.next, Family.after, Member.afterRelease, hxn] using hx
    obtain ⟨d, hd, hpid', hstatus', hparent', halive'⟩ := h.dead x hx'
    refine ⟨if d.parent = n then { d with orphan := true } else d, ?_, ?_⟩
    · show death x (_ :: A.hist) = _
      rw [death, if_neg fun e => hxn e.symm, hd]
      rfl
    · simp only [Annals.next, Family.after, Member.afterRelease]
      grind
  · -- The parent of a process that died in its lifetime is alive, or it would not be waiting.
    obtain ⟨d, hd, hpid', hstatus', hparent', halive'⟩ := h.dead n hzombie
    refine ⟨⟨d, hd, hpid'.trans hpid.symm, hstatus'.trans hstatus.symm, fun ha => ⟨?_, ?_⟩⟩, h.reported⟩
    · rw [hsent, hparent]
      rw [hparent] at hwait
      rcases hwait with hw | hb
      · exact halive' ha hw
      · exact hbusy _ _ hb
    · rw [hparent, hparent']

/-- An event keeps what is known of the deaths. -/
theorem Kept.mourned_next (h : Kept A) (hc : A.can e) : Mourned (A.next e) := by
  have hm := h.mourned
  cases e with
  | call who wait =>
    exact hm.of_same (fun _ => ⟨rfl, rfl, rfl⟩) (fun _ _ => ⟨rfl, rfl⟩) (fun _ => rfl) hm.reported
  | fork child who pid =>
    obtain ⟨hlive, -⟩ := (h.heard.each _).busy _ hc.1
    refine ⟨fun x hx => ?_, fun x hx => ?_, hm.reported⟩
    · have hnone := hm.others x
      simp only [Annals.next, Family.after, put_member, death] at *
      grind
    · have hxc : x ≠ child := fun e => by
        simp [Annals.next, Family.after, put_member, e, hlive] at hx
      have hx' : (A.fam.member x).life = .zombie := by
        simpa [Annals.next, Family.after, put_member, hxc] using hx
      obtain ⟨d, hd, hrest⟩ := hm.dead x hx'
      have hparent := h.kin.parents x (by simp [hx'])
      have hpc : (A.fam.member x).parent ≠ child := fun e => hparent (e ▸ hc.2)
      refine ⟨d, (if_neg fun e => hxc e.symm).trans hd, ?_⟩
      simp only [Annals.next, Family.after, put_member, if_neg hxc, if_neg hpc]
      exact hrest
  | mark n status catches =>
    exact hm.of_put rfl hc ⟨hc, rfl, rfl⟩ (fun _ => rfl) hm.reported
  | died n parent alive pid status => exact hm.died h.kin hc
  | released n parent sent pid status =>
    exact hm.released h.kin hc fun who wait hb => ((h.heard.each who).busy wait hb).1
  | waits who =>
    obtain ⟨hlive, -⟩ := (h.heard.each _).busy _ hc
    exact hm.of_put rfl hlive ⟨hlive, rfl, rfl⟩ (fun _ => rfl) hm.reported
  | pauses who =>
    obtain ⟨hlive, -⟩ := (h.heard.each _).busy _ hc
    exact hm.of_put rfl hlive ⟨hlive, rfl, rfl⟩ (fun _ => rfl) hm.reported
  | told who result res2 =>
    exact hm.of_same (fun _ => ⟨rfl, rfl, rfl⟩) (fun _ _ => ⟨rfl, rfl⟩) (fun _ => rfl) hm.reported
  | caught n sig_nr =>
    exact hm.of_put rfl hc.1 ⟨hc.1, rfl, rfl⟩ (fun _ => rfl) hm.reported
  | interrupted n =>
    exact hm.of_put rfl hc.1 ⟨hc.1, rfl, rfl⟩ (fun _ => rfl) hm.reported

/-! ## Calls and replies -/

/-- Events that do not concern a process. -/
theorem HeardBy.of_same (h : HeardBy A n)
    (hm : ((A.next e).fam.member n).life = (A.fam.member n).life ∧
      ((A.next e).fam.member n).waiting = (A.fam.member n).waiting ∧
      ((A.next e).fam.member n).paused = (A.fam.member n).paused)
    (hb : ∀ wait, busyAfter A.busy e = some (n, wait) ↔ A.busy = some (n, wait))
    (hl : lastCall n (e :: A.hist) = lastCall n A.hist)
    (ha : answers n (e :: A.hist) = answers n A.hist) : HeardBy (A.next e) n := by
  obtain ⟨hlife, hwait, hpause⟩ := hm
  have hhist : (A.next e).hist = e :: A.hist := rfl
  refine ⟨fun wait hbusy => ?_, ?_, ?_, fun h₁ h₂ h₃ hbusy => ?_, ?_⟩
  · rw [hlife, hwait, hpause, hhist, hl, ha]
    exact h.busy wait ((hb wait).mp hbusy)
  · rw [hlife, hwait, hpause, hhist, ha]
    exact h.pending
  · rw [hlife, hwait, hhist, hl]
    exact h.asked
  · unfold AnsweredOnce
    rw [hhist, hl, ha]
    exact h.answered (hlife ▸ h₁) (hwait ▸ h₂) (hpause ▸ h₃) fun wait hw =>
      hbusy wait ((hb wait).mpr hw)
  · rw [hhist, hl, ha]
    exact h.atMost

/-- Nothing is owed to a process that does not live. -/
theorem HeardBy.of_dead {B : Annals} (hlive : (B.fam.member n).life ≠ .live)
    (hbusy : ∀ wait, B.busy ≠ some (n, wait))
    (hm : (answers n B.hist).length ≤ 1 ∧
      (lastCall n B.hist = some true → ∀ e ∈ answers n B.hist, EndsWait e)) : HeardBy B n :=
  ⟨fun wait hb => absurd hb (hbusy wait), fun hl => absurd hl hlive, fun hl => absurd hl hlive,
    fun hl => absurd hl hlive, hm⟩

/-- The process is sent a reply that it waited for. -/
theorem HeardBy.of_reply (h : answers n A.hist = []) (ha : answers n (e :: A.hist) = e :: answers n A.hist)
    (hl : lastCall n (e :: A.hist) = lastCall n A.hist)
    (hend : lastCall n A.hist = some true → EndsWait e)
    (hm : ((A.next e).fam.member n).waiting = false ∧ ((A.next e).fam.member n).paused = false)
    (hb : ∀ wait, busyAfter A.busy e ≠ some (n, wait)) : HeardBy (A.next e) n := by
  obtain ⟨hwait, hpause⟩ := hm
  have hone : answers n (A.next e).hist = [e] := by
    rw [← h]
    exact ha
  have hlast : lastCall n (A.next e).hist = lastCall n A.hist := hl
  refine ⟨fun wait hbusy => absurd hbusy (hb wait), fun _ hw => ?_, fun _ hw => ?_,
    fun _ _ _ _ wait hw => ⟨e, hone, fun htrue => ?_⟩, ?_⟩
  · rw [hwait, hpause] at hw
    simp at hw
  · rw [hwait] at hw
    cases hw
  · exact hend (by rw [← hlast, hw, htrue])
  · rw [hone, hlast]
    refine ⟨le_rfl, fun hw e' he' => ?_⟩
    rw [List.mem_singleton.mp he']
    exact hend hw

/-- The caller waits for a reply. -/
theorem HeardBy.of_pending {B : Annals} (ha : answers n B.hist = [])
    (hb : ∀ wait, B.busy = some (n, wait) → (B.fam.member n).life = .live ∧
      (B.fam.member n).waiting = false ∧ (B.fam.member n).paused = false ∧
      lastCall n B.hist = some wait)
    (hl : (B.fam.member n).waiting = true → lastCall n B.hist = some true)
    (hp : (B.fam.member n).waiting = true ∨ (B.fam.member n).paused = true ∨
      (∃ wait, B.busy = some (n, wait)) ∨ lastCall n B.hist = none) : HeardBy B n := by
  refine ⟨fun wait hw => ?_, fun _ _ => ha, fun _ => hl, fun _ hwait hpause hbusy => ?_, ?_⟩
  · obtain ⟨h₁, h₂, h₃, h₄⟩ := hb wait hw
    exact ⟨h₁, h₂, h₃, h₄, ha⟩
  · rcases hp with hw | hw | ⟨wait, hw⟩ | hnone
    · exact absurd (hwait.symm.trans hw) (by decide)
    · exact absurd (hpause.symm.trans hw) (by decide)
    · exact absurd hw (hbusy wait)
    · intro wait hw
      rw [hnone] at hw
      cases hw
  · rw [ha]
    exact ⟨Nat.zero_le 1, fun _ e he => absurd he List.not_mem_nil⟩

/-- Whose call is executed, if it is not the call of a process. -/
theorem busy_of_ne {busy : Option (ProcNr × Bool)} {who : ProcNr} {wait : Bool}
    (hb : busy = some (who, wait)) (hn : n ≠ who) (wait' : Bool) : busy ≠ some (n, wait') := by
  rintro hw
  rw [hb] at hw
  cases hw
  exact hn rfl

/-- An event keeps what is known of the last call of a process. -/
theorem Kept.heardBy_next (h : Kept A) (hc : A.can e) (n : ProcNr) : HeardBy (A.next e) n := by
  have hn := h.heard.each n
  have hcalm := h.kin.calm n
  cases e with
  | call who wait =>
    obtain ⟨hidle, hlive, hwait, hpause⟩ := hc
    by_cases hx : n = who
    · subst hx
      refine HeardBy.of_pending (if_pos rfl) (fun w hw => ?_) (fun hw => ?_) (Or.inr (Or.inr (Or.inl ?_)))
      · cases hw
        exact ⟨hlive, hwait, hpause, if_pos rfl⟩
      · exact absurd (hwait.symm.trans hw) (by decide)
      · exact ⟨wait, rfl⟩
    · refine hn.of_same ⟨rfl, rfl, rfl⟩ (fun w => ?_) (if_neg (Ne.symm hx)) (if_neg (Ne.symm hx))
      simp [busyAfter, hidle, Ne.symm hx]
  | fork child who pid =>
    obtain ⟨hbusy, hfree⟩ := hc
    obtain ⟨hlive, hwait, hpause, -⟩ := (h.heard.each _).busy _ hbusy
    have hne : child ≠ who := fun e => by
      rw [e, hlive] at hfree
      cases hfree
    by_cases hx : n = child
    · subst hx
      refine HeardBy.of_pending (if_pos rfl) (fun w hw => ?_) (fun hw => ?_)
        (Or.inr (Or.inr (Or.inr (if_pos rfl))))
      · exact absurd hw (busy_of_ne hbusy hne w)
      · simp [Annals.next, Family.after, put_member, hwait] at hw
    · refine hn.of_same ?_ (fun w => Iff.rfl) (if_neg (Ne.symm hx)) (if_neg (Ne.symm hx))
      simp [Annals.next, Family.after, put_member, hx]
  | mark m status catches =>
    refine hn.of_same ?_ (fun w => Iff.rfl) rfl rfl
    simp only [Annals.next, Family.after, put_member]
    grind
  | died m parent alive pid status =>
    by_cases hx : n = m
    · subst hx
      refine HeardBy.of_dead ?_ (fun w hw => ?_) hn.atMost
      · simp [Annals.next, Family.after, put_member]
      · obtain ⟨-, hw⟩ := Option.filter_eq_some_iff.mp hw
        simp at hw
    · refine hn.of_same ?_ (fun w => ?_) rfl rfl
      · simp [Annals.next, Family.after, put_member, hx]
      · simp [busyAfter, Option.filter_eq_some_iff, hx]
  | released m parent sent pid status =>
    obtain ⟨hzombie, hparent, hsent, -, -, hwait⟩ := hc
    by_cases hx : n = m
    · subst hx
      have hself : parent ≠ n := by
        rw [hparent]
        refine h.kin.selfless n ?_ (by simp [hzombie])
        by_contra hle
        have hserver := h.kin.servers n (not_lt.mp hle)
        rw [hzombie] at hserver
        cases hserver
      have hans : answers n (A.next (.released n parent sent pid status)).hist = answers n A.hist := by
        cases sent <;> simp [Annals.next, answers, FamEvent.reply, hself]
      refine HeardBy.of_dead ?_ (fun w hw => ?_) ?_
      · simp [Annals.next, Family.after, Member.afterRelease]
      · obtain ⟨hlive, -⟩ := hn.busy w (by
          simp only [Annals.next, busyAfter] at hw
          grind)
        rw [hzombie] at hlive
        cases hlive
      · rw [hans]
        exact hn.atMost
    · by_cases hxp : n = parent
      · subst hxp
        -- The parent waits, or its call to wait is executed.
        have hidle : ∀ w, busyAfter A.busy (.released m n sent pid status) ≠ some (n, w) := by
          intro w
          have hb := hn.busy w
          simp only [busyAfter]
          grind
        cases sent with
        | true =>
          have hlive := hsent.mp rfl
          refine HeardBy.of_reply ?_ ?_ rfl (fun _ => trivial) ⟨?_, ?_⟩ hidle
          · rcases hwait with hw | hb
            · exact hn.pending hlive (Or.inl hw)
            · exact (hn.busy _ hb).2.2.2.2
          · simp [answers, FamEvent.reply]
          · simp [Annals.next, Family.after, Member.afterRelease]
          · show (A.fam.member n).paused = false
            rcases hwait with hw | hb
            · exact hcalm hlive hw
            · exact (hn.busy _ hb).2.2.1
        | false =>
          refine HeardBy.of_dead ?_ hidle hn.atMost
          simp only [Annals.next, Family.after, Member.afterRelease, if_neg hx]
          exact fun hlive => Bool.noConfusion (hsent.mpr hlive)
      · refine hn.of_same ?_ (fun w => ?_) rfl ?_
        · simp [Annals.next, Family.after, Member.afterRelease, hx, hxp]
        · simp only [busyAfter]
          grind
        · cases sent <;> simp [answers, FamEvent.reply, Ne.symm hxp]
  | waits who =>
    by_cases hx : n = who
    · subst hx
      obtain ⟨-, -, -, hlast, hans⟩ := hn.busy _ hc
      refine HeardBy.of_pending hans (fun w hw => ?_) (fun _ => hlast) (Or.inl ?_)
      · cases hw
      · simp [Annals.next, Family.after, put_member]
    · refine hn.of_same ?_ (fun w => ?_) rfl rfl
      · simp [Annals.next, Family.after, put_member, hx]
      · exact iff_of_false (by simp [busyAfter]) (busy_of_ne hc hx w)
  | pauses who =>
    by_cases hx : n = who
    · subst hx
      obtain ⟨-, hwait, -, hlast, hans⟩ := hn.busy _ hc
      refine HeardBy.of_pending hans (fun w hw => ?_) (fun hw => ?_) (Or.inr (Or.inl ?_))
      · cases hw
      · simp [Annals.next, Family.after, put_member, hwait] at hw
      · simp [Annals.next, Family.after, put_member]
    · refine hn.of_same ?_ (fun w => ?_) rfl rfl
      · simp [Annals.next, Family.after, put_member, hx]
      · exact iff_of_false (by simp [busyAfter]) (busy_of_ne hc hx w)
  | told who result res2 =>
    obtain ⟨wait, hbusy, hend⟩ : ∃ wait, A.busy = some (who, wait) ∧
        (wait = true → EndsWait (.told who result res2)) := by
      rcases hc with hb | ⟨hb, hr, hr2, -⟩
      · exact ⟨false, hb, fun h => by cases h⟩
      · exact ⟨true, hb, fun _ => ⟨hr, hr2⟩⟩
    by_cases hx : n = who
    · subst hx
      obtain ⟨-, hwait, hpause, hlast, hans⟩ := hn.busy _ hbusy
      refine HeardBy.of_reply hans ?_ rfl (fun hl => hend ?_) ⟨hwait, hpause⟩ fun w hw => by cases hw
      · simp [answers, FamEvent.reply]
      · rw [hlast] at hl
        exact Option.some.inj hl
    · refine hn.of_same ⟨rfl, rfl, rfl⟩ (fun w => ?_) rfl ?_
      · exact iff_of_false (by simp [busyAfter]) (busy_of_ne hbusy hx w)
      · simp [answers, FamEvent.reply, Ne.symm hx]
  | caught m sig_nr =>
    refine hn.of_same ?_ (fun w => Iff.rfl) rfl rfl
    simp only [Annals.next, Family.after, put_member]
    grind
  | interrupted m =>
    obtain ⟨hlive, hblocked, -⟩ := hc
    by_cases hx : n = m
    · subst hx
      refine HeardBy.of_reply (hn.pending hlive hblocked) ?_ rfl (fun _ => trivial) ?_ fun w hw => ?_
      · simp [answers, FamEvent.reply]
      · simp [Annals.next, Family.after, Family.say, put_member]
      · obtain ⟨-, hwait, hpause, -⟩ := hn.busy w hw
        rw [hwait, hpause] at hblocked
        simp at hblocked
    · refine hn.of_same ?_ (fun w => Iff.rfl) rfl ?_
      · simp [Annals.next, Family.after, Family.say, put_member, hx]
      · simp [answers, FamEvent.reply, Ne.symm hx]

/-- An event keeps what is known of the calls and the replies. -/
theorem Kept.heard_next (h : Kept A) (hc : A.can e) : Heard (A.next e) := by
  refine ⟨h.heardBy_next hc, ?_⟩
  cases e with
  | call who wait =>
    obtain ⟨hidle, hlive, hwait, hpause⟩ := hc
    refine ⟨(h.heard.each who).answered hlive hwait hpause fun w hw => ?_, h.heard.all⟩
    rw [hidle] at hw
    cases hw
  | fork => exact h.heard.all
  | mark => exact h.heard.all
  | died => exact h.heard.all
  | released => exact h.heard.all
  | waits => exact h.heard.all
  | pauses => exact h.heard.all
  | told => exact h.heard.all
  | caught => exact h.heard.all
  | interrupted => exact h.heard.all

/-! ## Records -/

/-- A reply that is sent is recorded. -/
theorem after_replies (F : Family) (e : FamEvent) :
    (F.after e).replies = e.reply.toList ++ F.replies := by
  cases e with
  | released n parent sent pid status => cases sent <;> rfl
  | _ => rfl

/-- Creations and deaths are recorded. -/
theorem after_log (F : Family) (e : FamEvent) : (F.after e).log = e.logged.toList ++ F.log := by
  cases e <;> rfl

/-- The head of a list that is filtered. -/
theorem filterMap_cons_toList {α β : Type*} (f : α → Option β) (a : α) (l : List α) :
    (a :: l).filterMap f = (f a).toList ++ l.filterMap f := by
  cases h : f a <;> simp [h]

/-- Events that have nothing to do with slots, and do not make a process appear or disappear. -/
theorem SlotOnce.of_other (h : SlotOnce A n) (hslot : e.slot = none)
    (hlife : ((A.next e).fam.member n).life = .free ↔ (A.fam.member n).life = .free) :
    SlotOnce (A.next e) n := by
  have hsame : (A.next e).hist.filterMap FamEvent.slot = A.hist.filterMap FamEvent.slot := by
    show (e :: A.hist).filterMap FamEvent.slot = _
    rw [filterMap_cons_toList, hslot]
    rfl
  constructor
  · rw [hsame]
    exact h.once
  · rw [hsame, ne_eq, hlife]
    exact h.fresh
  · rw [hsame, hlife]
    exact h.gone

/-- An event at a slot, which is another than that of the process, or counts for it. -/
theorem SlotOnce.of_slot (h : SlotOnce A n) {x : SlotEvent} (hslot : e.slot = some x)
    (htimes : times (.forked n) (.released n) (x :: A.hist.filterMap FamEvent.slot) ≤ 1)
    (hfresh : ((A.next e).fam.member n).life ≠ .free →
      times (.forked n) (.released n) (x :: A.hist.filterMap FamEvent.slot) = 0)
    (hgone : ((A.next e).fam.member n).life = .free →
      .forked n ∈ x :: A.hist.filterMap FamEvent.slot →
      times (.forked n) (.released n) (x :: A.hist.filterMap FamEvent.slot) = 1) :
    SlotOnce (A.next e) n := by
  have hcons : (A.next e).hist.filterMap FamEvent.slot = x :: A.hist.filterMap FamEvent.slot := by
    show (e :: A.hist).filterMap FamEvent.slot = _
    rw [filterMap_cons_toList, hslot]
    rfl
  constructor
  · rw [hcons]
    exact oncePer_cons.mpr ⟨htimes, h.once⟩
  · rw [hcons]
    exact hfresh
  · rw [hcons]
    exact hgone

/-- An event at another slot. -/
theorem SlotOnce.of_ne (h : SlotOnce A n) {x : SlotEvent} (hslot : e.slot = some x)
    (hx : x ≠ .forked n) (hx' : x ≠ .released n)
    (hlife : ((A.next e).fam.member n).life = (A.fam.member n).life) : SlotOnce (A.next e) n := by
  have hother : times (.forked n) (.released n) (x :: A.hist.filterMap FamEvent.slot) =
      times (.forked n) (.released n) (A.hist.filterMap FamEvent.slot) := times_other hx hx'
  apply h.of_slot hslot
  · rw [hother]
    exact h.once.times_le
  · rw [hother, hlife]
    exact h.fresh
  · rw [hother, hlife]
    intro hfree hm
    exact h.gone hfree ((List.mem_cons.mp hm).resolve_left hx.symm)

/-- An event keeps what is known of the slots. -/
theorem Kept.slots_next (h : Kept A) (hc : A.can e) (n : ProcNr) : SlotOnce (A.next e) n := by
  have hn := h.recorded.slots n
  have hput : ∀ {m : ProcNr} {member : Member}, (A.fam.member m).life = .live →
      member.life ≠ .free →
      (((A.fam.put m member).member n).life = .free ↔ (A.fam.member n).life = .free) := by
    intro m member hlive hm
    rw [put_member]
    split_ifs with hnm
    · rw [hnm, hlive]
      exact iff_of_false hm (by decide)
    · rfl
  have hlive : ∀ {m : ProcNr}, (A.fam.member m).life = .live → (A.fam.member m).life ≠ .free :=
    fun hl => by
      rw [hl]
      decide
  cases e with
  | call who wait => exact hn.of_other rfl Iff.rfl
  | fork child who pid =>
    obtain ⟨hwho, -⟩ := (h.heard.each _).busy _ hc.1
    by_cases hx : n = child
    · subst hx
      apply hn.of_slot rfl
      · simp
      · simp
      · simp [Annals.next, Family.after, put_member, hwho]
    · refine hn.of_ne rfl (by simpa using Ne.symm hx) (by simp) ?_
      simp [Annals.next, Family.after, put_member, hx]
  | mark m status catches => exact hn.of_other rfl (hput hc (hlive hc))
  | died m parent alive pid status => exact hn.of_other rfl (hput hc.1 (by simp))
  | released m parent sent pid status =>
    by_cases hx : n = m
    · subst hx
      -- The slot was in use, and so was not released before.
      have hnone := hn.fresh (by simp [hc.1])
      have hone : times (.forked n) (.released n)
          (.released n :: A.hist.filterMap FamEvent.slot) = 1 := by
        rw [times_event (by simp), hnone]
      apply hn.of_slot rfl
      · exact hone.le
      · simp [Annals.next, Family.after, Member.afterRelease]
      · exact fun _ _ => hone
    · refine hn.of_ne rfl (by simp) (by simpa using Ne.symm hx) ?_
      simp [Annals.next, Family.after, Member.afterRelease, hx]
  | waits who =>
    have hwho := ((h.heard.each _).busy _ hc).1
    exact hn.of_other rfl (hput hwho (hlive hwho))
  | pauses who =>
    have hwho := ((h.heard.each _).busy _ hc).1
    exact hn.of_other rfl (hput hwho (hlive hwho))
  | told who result res2 => exact hn.of_other rfl Iff.rfl
  | caught m sig_nr => exact hn.of_other rfl (hput hc.1 (hlive hc.1))
  | interrupted m => exact hn.of_other rfl (hput hc.1 (hlive hc.1))

/-- An event keeps what is recorded. -/
theorem Kept.recorded_next (h : Kept A) (hc : A.can e) : Recorded (A.next e) := by
  refine ⟨?_, ?_, ?_, h.slots_next hc⟩
  · show (e :: A.hist).filterMap FamEvent.reply = (A.fam.after e).replies
    rw [filterMap_cons_toList, h.recorded.replies, after_replies]
  · show (e :: A.hist).filterMap FamEvent.logged = (A.fam.after e).log
    rw [filterMap_cons_toList, h.recorded.log, after_log]
  · have hi := h.recorded.interrupted
    cases e with
    | interrupted n => exact ⟨hc.2.2, hi⟩
    | _ => exact hi

/-- An event keeps everything. -/
theorem Kept.next (h : Kept A) (hc : A.can e) : Kept (A.next e) :=
  ⟨h.kin_next hc, h.mourned_next hc, h.heard_next hc, h.recorded_next hc⟩

/-- Whatever happens keeps everything. -/
theorem Kept.run {es : List FamEvent} (h : Kept A) (hr : Run AnnalsStep A es A') : Kept A' :=
  hr.invariant h fun _ _ _ hk hst => by
    obtain ⟨hc, rfl⟩ := hst
    exact hk.next hc

end Minix.Mm
