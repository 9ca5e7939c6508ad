import Minix.Kernel.ShadowCalls
import Minix.Lib.Run

/-!
# Shadow families over whole runs

The memory manager forks, executes, adjusts and ends processes in any order, and the clock flips
images. `ShadowStep` has these calls with what the memory manager promises of their parameters: the
process that forks or executes waits for its answer, and a block that it hands in is nobody's. The
rest of the kernel stops processes, starts them, and reschedules; processes write into their images.

`supplied` and `returned` are the blocks that a step hands in and out.
-/

namespace Minix.Kernel

open Lib

variable {γ : Type}

/-- What can happen to shadowed images. -/
inductive ShadowAction (γ : Type)
  /-- `sys_fork`, with a block of `clicks` clicks. -/
  | fork (parent child : Slot) (base clicks : ℕ)
  /-- `sys_fresh`, which reports `block`. -/
  | fresh (p : Slot) (t d s : MemMap) (offset : ℕ) (block : Span)
  /-- `sys_newmap` from `adjust`. -/
  | adjust (p : Slot) (data_clicks sp_click : ℕ)
  /-- `sys_xit`, which reports `block`. -/
  | xit (parent p : Slot) (block : Span)
  /-- The clock looks for a shadow to flip. -/
  | clock
  /-- A process writes to a click of its image. -/
  | write (p : Slot) (i : ℕ) (v : γ)
  /-- A task starts or ends a transfer to the memory of a process. -/
  | physio (p : Slot) (b : Bool)
  /-- Flags of a process are set. -/
  | block (p : Slot) (f : PFlags)
  /-- Flags of a process are cleared. -/
  | unblock (p : Slot) (f : PFlags)
  /-- The head of the user queue goes to its end. -/
  | sched

/-- The block is nobody's. -/
def Unowned (m : Machine γ) (b : Span) : Prop :=
  ∀ p, m.live p → ((imagesOf m).block p).Apart b

/-- One step. -/
inductive ShadowStep [Zero γ] : Machine γ → ShadowAction γ → Machine γ → Prop
  | fork {m m' : Machine γ} {parent child : Slot} {base : ℕ}
      (hp : m.live parent) (hwait : (m.k.p_flags parent).receiving)
      (hc : isuserp child) (hfree : (m.k.p_flags child).slotFree)
      (hbase : base ≠ 0) (hblock : Unowned m (base, m.clicks parent))
      (h : doFork m parent child base = (OK, m')) :
      ShadowStep m (.fork parent child base (m.clicks parent)) m'
  | fresh {m m' : Machine γ} {p : Slot} {t d s : MemMap} {offset : ℕ} {block : Span}
      (hp : m.live p) (hwait : (m.k.p_flags p).receiving) (hmap : MapOk t d s)
      (hpos : 0 < s.mem_phys - d.mem_phys + s.mem_len)
      (hoff : offset ≤ s.mem_phys - d.mem_phys + s.mem_len)
      (hblock : Unowned m (t.mem_phys, s.mem_phys - d.mem_phys + s.mem_len + t.mem_len))
      (h : doFresh m p t d s offset = some (OK, some block, m')) :
      ShadowStep m (.fresh p t d s offset block) m'
  | adjust {m : Machine γ} {p : Slot} {data_clicks sp_click : ℕ}
      (hp : m.live p) (hdata : (m.k.p_map p).mem_vir + data_clicks < 2 ^ 16) :
      ShadowStep m (.adjust p data_clicks sp_click) (adjustProc m p data_clicks sp_click)
  | xit {m m' : Machine γ} {parent p : Slot} {block : Span} (hp : m.live p)
      (h : doXit m parent p = some (OK, some block, m')) :
      ShadowStep m (.xit parent p block) m'
  | clock {m m' : Machine γ} (h : clockUnshadow m = some m') : ShadowStep m .clock m'
  | write {m : Machine γ} {p : Slot} {i : ℕ} {v : γ} (hp : m.live p) (hi : i < m.clicks p) :
      ShadowStep m (.write p i v)
        { m with core := Function.update m.core ((imagesOf m).base p + i) v }
  | physio {m : Machine γ} {p : Slot} {b : Bool} :
      ShadowStep m (.physio p b) { m with p_physio := Function.update m.p_physio p b }
  | block {m : Machine γ} {k : State} {p : Slot} {f : PFlags}
      (hf : f ≠ PFlags.zero) (hfree : f.slotFree = false)
      (hsig : ((m.k.p_flags p).or f).pending → ((m.k.p_flags p).or f).sigPending)
      (h : Kernel.block m.k p f = some k) : ShadowStep m (.block p f) { m with k := k }
  | unblock {m : Machine γ} {k : State} {p : Slot} {f : PFlags}
      (h0 : m.k.p_flags p ≠ PFlags.zero) (hfree : f.slotFree = false)
      (hsig : ((m.k.p_flags p).clear f).pending → ((m.k.p_flags p).clear f).sigPending)
      (h : Kernel.unblock m.k p f = some k) : ShadowStep m (.unblock p f) { m with k := k }
  | sched {m : Machine γ} {k : State} (h : Kernel.sched m.k = some k) :
      ShadowStep m .sched { m with k := k }

/-- As after `main`: nothing is shadowed, and the live users have blocks of their own. -/
structure ShadowStart (m : Machine γ) : Prop where
  boot : Boot m.k
  maps : MapsOk m
  shadow : ∀ p, m.live p → m.k.p_shadow p = 0
  pos : ∀ p, m.live p → 0 < m.clicks p
  apart : ∀ p q, m.live p → m.live q → p ≠ q →
    ((imagesOf m).block p).Apart ((imagesOf m).block q)

/-- The blocks that the memory manager hands in. -/
def supplied : ShadowAction γ → Multiset Span
  | .fork _ _ base clicks => {(base, clicks)}
  | .fresh _ t d s _ _ => {(t.mem_phys, s.mem_phys - d.mem_phys + s.mem_len + t.mem_len)}
  | _ => 0

/-- The blocks that are reported to the memory manager. -/
def returned : ShadowAction γ → Multiset Span
  | .fresh _ _ _ _ _ block => {block}
  | .xit _ _ block => {block}
  | _ => 0

/-- What becomes of the contents of the images: a child has those of its parent, a fresh image is
zero from its offset on, a process writes to its own image, and nothing else changes. -/
def Contents [Zero γ] (I : Images γ) (a : ShadowAction γ) (J : Images γ) : Prop :=
  ∀ x i, J.live x → i < J.clicks x →
    match a with
    | .fork parent child _ _ => J.image x i = if x = child then I.image parent i else I.image x i
    | .fresh p _ _ _ offset _ =>
      if x = p then offset ≤ i → J.image x i = 0 else J.image x i = I.image x i
    | .write p j v => J.image x i = if x = p ∧ i = j then v else I.image x i
    | _ => J.image x i = I.image x i

/-- What is promised of the families in every state. -/
structure ShadowOk (m : Machine γ) : Prop where
  /-- Of the live users with the same data segment, exactly one is real. -/
  real : ∀ p, m.live p → ∃! q, m.live q ∧ (m.k.p_map q).mem_phys = (m.k.p_map p).mem_phys ∧
    m.k.p_shadow q = 0
  distinct : ∀ p q, m.live p → m.live q → m.k.p_shadow p ≠ 0 → m.k.p_shadow p = m.k.p_shadow q →
    p = q
  /-- The ready users are queued, according to their shadows. -/
  queues : ∃ rq, Queues m.k rq ∧
    (∀ p, p ∈ rq .SHADOW_Q ↔ m.live p ∧ m.k.p_flags p = PFlags.zero ∧ m.k.p_shadow p ≠ 0) ∧
    ∀ p, p ∈ rq .USER_Q ↔ m.live p ∧ m.k.p_flags p = PFlags.zero ∧ m.k.p_shadow p = 0

/-- What a run keeps. -/
structure ShadowInv (m : Machine γ) : Prop where
  ready : ReadyOk m.k
  maps : MapsOk m
  families : Families (imagesOf m)

variable {m m' m₀ : Machine γ} {a : ShadowAction γ} {as : List (ShadowAction γ)} {p q x : Slot}
  {i : ℕ}

/-- The invariant holds at the start. -/
theorem ShadowStart.inv (h : ShadowStart m) : ShadowInv m where
  ready := h.boot.sched.ready
  maps := h.maps
  families := by
    have hreal : ∀ p, m.live p → (imagesOf m).block p =
        ((imagesOf m).home p - (imagesOf m).text p, (imagesOf m).clicks p + (imagesOf m).text p) :=
      fun p hp => Images.block_real (h.shadow p hp)
    refine ⟨fun p hp => ⟨?_, h.pos p hp⟩, fun p q hp hq hh => ?_, h.apart, fun p hp => ?_⟩
    · have := (h.maps p hp).text
      show (m.text p).mem_len ≤ (m.k.p_map p).mem_phys
      omega
    · -- Two images at one place are one, since blocks are apart.
      obtain rfl : p = q := by
        by_contra hne
        refine h.apart p q hp hq hne ((imagesOf m).home p) ⟨?_, ?_⟩
        · rw [hreal p hp, Span.has_iff]
          have := h.pos p hp
          have : 0 < (imagesOf m).clicks p := this
          constructor <;> dsimp only <;> omega
        · rw [hreal q hq, Span.has_iff, hh]
          have := h.pos q hq
          have : 0 < (imagesOf m).clicks q := this
          constructor <;> dsimp only <;> omega
      exact ⟨rfl, rfl⟩
    · exact ⟨p, hp, h.shadow p hp, rfl⟩

/-- The families and queues of a state of a run are as promised. -/
theorem ShadowInv.ok (h : ShadowInv m) : ShadowOk m where
  real p hp := by
    obtain ⟨q, hq, hsq, hh⟩ := h.families.real p hp
    refine ⟨q, ⟨hq, hh, hsq⟩, fun r ⟨hr, hhr, hsr⟩ => ?_⟩
    exact h.families.real_unique hr hq hsr hsq (hhr.trans hh.symm)
  distinct p q hp hq hs hpq := by
    by_contra hne
    have hbp := h.families.mem_block hp (h.families.low p hp).2
    have hbq := h.families.mem_block hq (h.families.low q hq).2
    have hs' : m.k.p_shadow q ≠ 0 := hpq ▸ hs
    have hep : (imagesOf m).base p = m.k.p_shadow p := if_pos hs
    have heq : (imagesOf m).base q = m.k.p_shadow q := if_pos hs'
    rw [hep] at hbp
    rw [heq, ← hpq] at hbq
    exact h.families.apart p q hp hq hne _ ⟨hbp, hbq⟩
  queues := by
    obtain ⟨rq, hrq⟩ := h.ready
    have hlive : ∀ {p}, isuserp p = true → m.k.p_flags p = PFlags.zero → m.live p = true := by
      intro p hu h0
      refine Machine.live_iff.mpr ⟨hu, ?_⟩
      rw [h0]
      rfl
    have hqueue : ∀ {p}, isuserp p = true → queueOf m.k p =
        if m.k.p_shadow p ≠ 0 then .SHADOW_Q else .USER_Q := by
      intro p hu
      unfold queueOf isshadowp
      simp [(isuserp_ne hu).2.2, hu]
    have huser : ∀ {p} {c : Queue}, (c = .SHADOW_Q ∨ c = .USER_Q) → queueOf m.k p = c →
        isuserp p = true := by
      intro p c hc hp
      by_contra hu
      unfold queueOf at hp
      rw [Bool.not_eq_true] at hu
      simp only [hu, Bool.not_false, if_true] at hp
      split_ifs at hp
      · rcases hc with rfl | rfl
        · exact absurd hp (by decide)
        · exact absurd hp (by decide)
      · rcases hc with rfl | rfl
        · exact absurd hp (by decide)
        · exact absurd hp (by decide)
    have hmem : ∀ {p} {c : Queue}, (c = .SHADOW_Q ∨ c = .USER_Q) →
        (p ∈ rq c ↔ m.live p ∧ m.k.p_flags p = PFlags.zero ∧ queueOf m.k p = c) := by
      intro p c hc
      constructor
      · intro hp
        have hcls := hrq.queues.cls c p hp
        have h0 := hrq.zero c p hp
        exact ⟨hlive (huser hc hcls) h0, h0, hcls⟩
      · rintro ⟨hl, h0, hcls⟩
        have hu := (Machine.live_iff.mp hl).1
        rw [← hcls]
        exact hrq.mem p (isuserp_ne hu).1 (isuserp_ne hu).2.1 h0
    refine ⟨rq, hrq.queues, fun p => ?_, fun p => ?_⟩
    · rw [hmem (Or.inl rfl)]
      refine and_congr_right fun hl => and_congr_right fun _ => ?_
      rw [hqueue (Machine.live_iff.mp hl).1]
      by_cases hs : m.k.p_shadow p = 0
      · simp [hs]
      · simp [hs]
    · rw [hmem (Or.inr rfl)]
      refine and_congr_right fun hl => and_congr_right fun _ => ?_
      rw [hqueue (Machine.live_iff.mp hl).1]
      by_cases hs : m.k.p_shadow p = 0
      · simp [hs]
      · simp [hs]

/-- The ready queues are in order, and the images are those of a state in which the families are. -/
theorem ShadowInv.of_images (h : ShadowInv m) (hk : ReadyOk m'.k) (hkept : MapsKept m m')
    (hlive : ∀ x, m'.live x = true → m.live x = true) (hF : Families (imagesOf m')) :
    ShadowInv m' where
  ready := hk
  families := hF
  maps x hx := by
    rw [hkept.text, hkept.stack, hkept.map]
    exact h.maps x (hlive x hx)

/-- Setting or clearing flags other than `P_SLOT_FREE` changes no image. -/
theorem imagesOf_reflagged {k k' : State} {f : PFlags} (h : Reflagged k p f k')
    (hf : f.slotFree = (k.p_flags p).slotFree) :
    imagesOf { m with k := k' } = imagesOf { m with k := k } := by
  obtain ⟨_, _, _, _, _, rfl⟩ := h
  unfold imagesOf
  rw [Images.mk.injEq]
  refine ⟨funext fun x => ?_, rfl, rfl, rfl, rfl, rfl⟩
  unfold Machine.live
  dsimp only
  by_cases hx : x = p
  · subst hx
    rw [Function.update_self, hf]
  · rw [Function.update_of_ne hx]

/-- The first process of the queue of shadows is shadowed and ready. -/
theorem ShadowInv.head (h : ShadowInv m) (hp : m.k.rdy_head .SHADOW_Q = some p) :
    m.live p = true ∧ m.k.p_flags p = PFlags.zero ∧ m.k.p_shadow p ≠ 0 := by
  obtain ⟨rq, hq, hs, -⟩ := h.ok.queues
  refine (hs p).mp (List.mem_of_mem_head? ?_)
  rw [hq.chains.head?_eq, hp]
  rfl

/-! ## Steps -/

/-- What a step keeps, what it does to the contents of images, and how blocks balance. -/
structure StepOk [Zero γ] (m : Machine γ) (a : ShadowAction γ) (m' : Machine γ) : Prop where
  inv : ShadowInv m'
  contents : Contents (imagesOf m) a (imagesOf m')
  account : (imagesOf m).owned + supplied a = (imagesOf m').owned + returned a
  /-- A block that is reported is nobody's. -/
  unowned : ∀ b ∈ returned a, Unowned m' b

variable [Zero γ]

/-- A step that changes no image, and hands no block in or out. -/
theorem StepOk.of_images (hinv : ShadowInv m') (he : imagesOf m' = imagesOf m)
    (hs : supplied a = 0) (hr : returned a = 0)
    (hc : ∀ J, J = imagesOf m → Contents (imagesOf m) a J) : StepOk m a m' where
  inv := hinv
  contents := hc _ he
  account := by rw [he, hs, hr]
  unowned b hb := by
    rw [hr] at hb
    exact absurd hb (Multiset.notMem_zero b)

/-- A fork. -/
theorem ShadowInv.fork {parent child : Slot} {base : ℕ} (h : ShadowInv m)
    (hp : m.live parent = true) (hwait : (m.k.p_flags parent).receiving = true)
    (hc : isuserp child = true) (hfree : (m.k.p_flags child).slotFree = true) (hbase : base ≠ 0)
    (hblock : Unowned m (base, m.clicks parent)) (hd : doFork m parent child base = (OK, m')) :
    StepOk m (.fork parent child base (m.clicks parent)) m' := by
  obtain ⟨-, himg, hk⟩ := doFork_spec (b := base) h.ready hp hc hfree hwait
  have hmaps := doFork_maps (b := base) h.maps hp hc hfree
  rw [hd] at himg hk hmaps
  have hdead : (imagesOf m).live child = false := by
    rw [← Bool.not_eq_true]
    intro hl
    rw [(Machine.live_iff.mp hl).2] at hfree
    exact absurd hfree (by decide)
  refine ⟨⟨hk, hmaps, ?_⟩, fun x i hx hi => ?_, ?_, fun b hb => absurd hb (by simp [returned])⟩
  · rw [himg]
    exact Families.fork hp hdead hbase h.families hblock
  · rw [himg] at hx hi ⊢
    exact Families.fork_image hp hdead hbase h.families hblock hx hi
  · rw [himg, Images.fork_owned hp hdead hbase]
    simp only [supplied, returned, add_zero]
    rfl

/-- An exit. -/
theorem ShadowInv.xit {parent : Slot} {block : Span} (h : ShadowInv m) (hp : m.live p = true)
    (hx : doXit m parent p = some (OK, some block, m')) : StepOk m (.xit parent p block) m' := by
  obtain ⟨heir, hheir, rfl, himg, hk, hmaps⟩ := doXit_spec h.ready h.maps hp hx
  have hlive : ∀ x, (imagesOf m').live x = true → x ≠ p ∧ (imagesOf m).live x = true := by
    intro x hx
    rw [himg, Images.leave_live] at hx
    have hne : x ≠ p := by
      rintro rfl
      rw [Function.update_self] at hx
      exact absurd hx (by decide)
    rw [Function.update_of_ne hne] at hx
    exact ⟨hne, hx⟩
  refine ⟨⟨hk, hmaps, ?_⟩, fun x i hx hi => ?_, ?_, fun b hb x hx => ?_⟩
  · rw [himg]
    exact h.families.leave hp hheir
  · obtain ⟨hne, hx⟩ := hlive x hx
    rw [himg, Images.leave_maps.2.2] at hi
    show (imagesOf m').image x i = (imagesOf m).image x i
    rw [himg]
    exact h.families.leave_image hp hheir hne hx hi
  · rw [himg]
    simp only [supplied, returned, add_zero]
    exact (h.families.leave_owned hp hheir).symm
  · obtain ⟨hne, hx⟩ := hlive x hx
    obtain rfl := Multiset.mem_singleton.mp hb
    rw [himg]
    exact (h.families.freed_apart hp hheir hne hx).symm

/-- An exec. -/
theorem ShadowInv.fresh {t d s : MemMap} {offset : ℕ} {block : Span} (h : ShadowInv m)
    (hp : m.live p = true) (hwait : (m.k.p_flags p).receiving = true) (hmap : MapOk t d s)
    (hpos : 0 < s.mem_phys - d.mem_phys + s.mem_len)
    (hblock : Unowned m (t.mem_phys, s.mem_phys - d.mem_phys + s.mem_len + t.mem_len))
    (hd : doFresh m p t d s offset = some (OK, some block, m')) :
    StepOk m (.fresh p t d s offset block) m' := by
  have hblocked : m.k.p_flags p ≠ PFlags.zero := by
    intro e
    rw [e] at hwait
    exact absurd hwait (by decide)
  obtain ⟨heir, hheir, rfl, himg, hk, hmaps⟩ := doFresh_spec h.ready h.maps hp hblocked hmap hd
  -- The process gives up its image first, and has the fresh one then.
  have hF := h.families.leave hp hheir
  have hdead : ((imagesOf m).leave p heir).live p = false := by
    rw [Images.leave_live, Function.update_self]
  have hshadow : ((imagesOf m).leave p heir).shadow p = 0 := by
    unfold Images.leave
    split_ifs with hs
    · exact Function.update_self ..
    · have hs := not_not.mp hs
      split
      · rename_i q
        exact (Function.update_of_ne (Ne.symm hheir.2.1) _ _).trans hs
      · exact hs
  have hbase : t.mem_phys = d.mem_phys - t.mem_len := by
    have := hmap.text
    omega
  have hlow : t.mem_len ≤ d.mem_phys := by
    have := hmap.text
    omega
  have hlive : ∀ x, ((imagesOf m).leave p heir).live x = true →
      x ≠ p ∧ (imagesOf m).live x = true := by
    intro x hx
    have hne := Images.ne_of_live hx hdead
    rw [Images.leave_live, Function.update_of_ne hne] at hx
    exact ⟨hne, hx⟩
  -- Every block that is owned then was owned before.
  have hf : ∀ x, ((imagesOf m).leave p heir).live x → (((imagesOf m).leave p heir).block x).Apart
      (d.mem_phys - t.mem_len, s.mem_phys - d.mem_phys + s.mem_len + t.mem_len) := by
    intro x hx
    obtain ⟨hne, hlx⟩ := hlive x hx
    rw [← hbase, h.families.leave_block hp hheir hne]
    split_ifs
    · exact hblock p hp
    · exact hblock x hlx
  have hfresh := @Families.fresh γ _ p _ _ _ hdead hshadow _ offset hF hlow hpos hf
  rw [← himg] at hfresh
  obtain ⟨hF', howned, hcontents⟩ := hfresh
  refine ⟨⟨hk, hmaps, hF'⟩, fun x i hx hi => ?_, ?_, fun b hb x hx => ?_⟩
  · have hc := hcontents x i hx hi
    show if x = p then _ else _
    by_cases hxp : x = p
    · rw [if_pos hxp] at hc ⊢
      exact hc
    · rw [if_neg hxp] at hc ⊢
      have hxl : ((imagesOf m).leave p heir).live x = true := by
        rw [himg] at hx
        simpa [Images.fresh, Images.enter, hxp] using hx
      have hxc : i < (imagesOf m).clicks x := by
        rw [himg] at hi
        have hi : i < ((imagesOf m).leave p heir).clicks x := by
          simpa [Images.fresh, Images.enter, hxp] using hi
        rwa [Images.leave_maps.2.2] at hi
      rw [hc]
      exact h.families.leave_image hp hheir hxp (hlive x hxl).2 hxc
  · rw [howned, ← h.families.leave_owned hp hheir, ← hbase]
    simp only [supplied, returned]
    exact add_right_comm _ _ _
  · obtain rfl := Multiset.mem_singleton.mp hb
    have hx : (imagesOf m').live x = true := hx
    rw [himg] at hx ⊢
    show (((((imagesOf m).leave p heir).enter p d.mem_phys t.mem_len _).block x)).Apart _
    rw [Images.enter_block hdead hshadow]
    by_cases hxp : x = p
    · -- The fresh block is none of those that were owned, and one of these is reported.
      rw [if_pos hxp, ← hbase, h.families.freed_eq hp hheir]
      cases hq : (imagesOf m).successor p heir with
      | none => exact (hblock p hp).symm
      | some q =>
        obtain ⟨hlq, -⟩ := h.families.successor hp hheir hq
        exact (hblock q hlq).symm
    · rw [if_neg hxp]
      have hxl : ((imagesOf m).leave p heir).live x = true := by
        simpa [Images.fresh, Images.enter, hxp] using hx
      exact (h.families.freed_apart hp hheir hxp (hlive x hxl).2).symm

/-- The clock's look at the shadows. -/
theorem ShadowInv.clock (h : ShadowInv m) (hc : clockUnshadow m = some m') :
    StepOk m .clock m' := by
  unfold clockUnshadow at hc
  cases hh : m.k.rdy_head .SHADOW_Q with
  | none =>
    rw [hh] at hc
    obtain rfl := Option.some.inj hc
    exact StepOk.of_images h rfl rfl rfl fun J hJ x i _ _ => by rw [hJ]
  | some p =>
    rw [hh] at hc
    obtain ⟨hp, h0, hs⟩ := h.head hh
    obtain ⟨himg, hk, hkept⟩ := unshadow_spec h.ready h0 hc
    have hlive : ∀ x, m'.live x = true → m.live x = true := by
      intro x hx
      unfold Machine.live at hx ⊢
      rw [hkept.flags] at hx
      exact hx
    rcases himg with himg | ⟨q, hq, hsq, hhq, himg⟩
    · have hF : Families (imagesOf m') := by
        rw [himg]
        exact h.families
      exact StepOk.of_images (h.of_images hk hkept hlive hF) himg rfl rfl
        fun J hJ x i _ _ => by rw [hJ]
    · have hF : Families (imagesOf m') := by
        rw [himg]
        exact h.families.flip hp hq hs hsq hhq
      refine ⟨h.of_images hk hkept hlive hF, fun x i hx hi => ?_, ?_,
        fun b hb => absurd hb (by simp [returned])⟩
      · show (imagesOf m').image x i = (imagesOf m).image x i
        rw [himg] at hx hi ⊢
        exact h.families.flip_image hp hq hs hsq hhq hx hi
      · rw [himg, h.families.flip_owned hp hq hs hsq hhq]
        rfl

/-- The flags of a process change, and its queue. -/
theorem ShadowInv.reflagged {k : State} {f : PFlags} (h : ShadowInv m)
    (hre : Reflagged m.k p f k) (hf : f.slotFree = (m.k.p_flags p).slotFree) (hk : ReadyOk k)
    (hs : supplied a = 0) (hr : returned a = 0)
    (hc : ∀ J, J = imagesOf m → Contents (imagesOf m) a J) : StepOk m a { m with k := k } := by
  have himg : imagesOf { m with k := k } = imagesOf m := imagesOf_reflagged hre hf
  refine StepOk.of_images ⟨hk, fun x hx => ?_, ?_⟩ himg hs hr hc
  · have hlive : m.live x = true := (congrFun (congrArg Images.live himg) x).symm.trans hx
    obtain ⟨_, _, _, _, _, rfl⟩ := hre
    exact h.maps x hlive
  · rw [himg]
    exact h.families

/-- Every step is in order. -/
theorem ShadowInv.step (h : ShadowInv m) (hst : ShadowStep m a m') : StepOk m a m' := by
  cases hst with
  | fork hp hwait hc hfree hbase hblock hd => exact h.fork hp hwait hc hfree hbase hblock hd
  | fresh hp hwait hmap hpos hoff hblock hd => exact h.fresh hp hwait hmap hpos hblock hd
  | adjust hp hdata =>
    obtain ⟨himg, hk, hmaps⟩ := adjustProc_spec h.ready h.maps hp hdata
    refine StepOk.of_images ⟨hk, hmaps, ?_⟩ himg rfl rfl fun J hJ x i _ _ => by rw [hJ]
    rw [himg]
    exact h.families
  | xit hp hx => exact h.xit hp hx
  | clock hc => exact h.clock hc
  | write hp hi =>
    refine ⟨⟨h.ready, h.maps, h.families.setCore _⟩, fun x j hx hj => ?_, rfl,
      fun b hb => absurd hb (by simp [returned])⟩
    exact h.families.write_image hp hi hx hj
  | physio =>
    exact StepOk.of_images ⟨h.ready, h.maps, h.families⟩ rfl rfl rfl
      fun J hJ x i _ _ => by rw [hJ]
  | block hf hfree hsig hb =>
    obtain ⟨rq, hrq⟩ := h.ready
    obtain ⟨k, hk, hr, -⟩ := block_spec hrq hf hsig
    obtain rfl := Option.some.inj (hk.symm.trans hb)
    refine h.reflagged (block_reflagged hb) ?_ hr rfl rfl fun J hJ x i _ _ => by rw [hJ]
    simp [PFlags.or, hfree]
  | unblock h0 hfree hsig hu =>
    obtain ⟨rq, hrq⟩ := h.ready
    obtain ⟨k, hk, hr, -⟩ := unblock_spec hrq h0 hsig
    obtain rfl := Option.some.inj (hk.symm.trans hu)
    refine h.reflagged (unblock_reflagged hu) ?_ hr rfl rfl fun J hJ x i _ _ => by rw [hJ]
    simp [PFlags.clear, hfree]
  | @sched k hs =>
    obtain ⟨rq, hrq⟩ := h.ready
    obtain ⟨k', hk, hq, -⟩ := sched_spec hrq.queues
    obtain rfl := Option.some.inj (hk.symm.trans hs)
    have hre := sched_resched hs
    have himg : imagesOf { m with k := k' } = imagesOf m := imagesOf_resched hre
    have hm : ∀ q p, p ∈ Function.update rq .USER_Q ((rq .USER_Q).rotate 1) q ↔ p ∈ rq q := by
      intro q p
      by_cases hqu : q = .USER_Q
      · subst hqu
        rw [Function.update_self, List.mem_rotate]
      · rw [Function.update_of_ne hqu]
    have hlive : ∀ x, Machine.live { m with k := k' } x = true → m.live x = true := fun x hx =>
      (congrFun (congrArg Images.live himg) x).symm.trans hx
    have hF : Families (imagesOf { m with k := k' }) := by
      rw [himg]
      exact h.families
    exact StepOk.of_images (h.of_images ⟨_, hrq.resched hre hq hm⟩
      ⟨hre.flags, hre.map, rfl, rfl⟩ hlive hF) himg rfl rfl fun J hJ x i _ _ => by rw [hJ]

/-- Over a run the blocks balance. -/
theorem ShadowInv.run (h : ShadowInv m₀) (hr : Run ShadowStep m₀ as m) : ShadowInv m ∧
    (imagesOf m₀).owned + (as.map supplied).sum =
      (imagesOf m).owned + (as.map returned).sum := by
  induction hr with
  | nil => exact ⟨h, rfl⟩
  | @snoc as a m m' _ hst ih =>
    obtain ⟨hm, hacc⟩ := ih
    have hok := hm.step hst
    refine ⟨hok.inv, ?_⟩
    simp only [List.map_append, List.map_cons, List.map_nil, List.sum_append, List.sum_cons,
      List.sum_nil, add_zero]
    calc (imagesOf m₀).owned + ((as.map supplied).sum + supplied a)
        = (imagesOf m).owned + (as.map returned).sum + supplied a := by rw [← add_assoc, hacc]
      _ = (imagesOf m).owned + supplied a + (as.map returned).sum := add_right_comm _ _ _
      _ = (imagesOf m').owned + returned a + (as.map returned).sum := by rw [hok.account]
      _ = (imagesOf m').owned + ((as.map returned).sum + returned a) := by
        rw [add_assoc, add_comm (returned a)]

/-- In every run each family has one real member, shadows and queues agree, images change by writes
of their owners only, and each block that is handed in is reported once, when nobody owns it. -/
theorem shadow_families (h₀ : ShadowStart m₀) (hr : Run ShadowStep m₀ as m) : ShadowOk m ∧
    (imagesOf m₀).owned + (as.map supplied).sum = (imagesOf m).owned + (as.map returned).sum ∧
    ∀ a m', ShadowStep m a m' → Contents (imagesOf m) a (imagesOf m') ∧
      ∀ b ∈ returned a, Unowned m' b := by
  obtain ⟨hinv, hacc⟩ := h₀.inv.run hr
  exact ⟨hinv.ok, hacc, fun a m' hst => ⟨(hinv.step hst).contents, (hinv.step hst).unowned⟩⟩

/-- The first user, in a machine where nothing else lives. -/
theorem initAlone_exists : ∃ m : Machine ℕ, ShadowStart m ∧ m.live initSlot = true ∧
    (∀ p, m.live p → p = initSlot) ∧ (∀ p, isuserp p → p ≠ initSlot →
      (m.k.p_flags p).slotFree = true) ∧ m.k.p_flags initSlot = PFlags.zero ∧
    m.k.p_shadow = (fun _ => 0) ∧ m.k.p_map = (fun _ => ⟨10, 10, 4⟩) ∧
    m.text = (fun _ => ⟨8, 8, 2⟩) ∧ m.stack = fun _ => ⟨14, 14, 0⟩ := by
  obtain ⟨k, hk, hb, -, hflags⟩ :=
    @main_spec [] { zeroState with p_map := fun _ => ⟨10, 10, 4⟩ } (by decide)
  have hboot : Boot k := ⟨_, [], by decide, hk⟩
  have hinit : k.p_flags initSlot = PFlags.zero := by
    rw [hflags, if_pos (by decide)]
  have hothers : ∀ p, isuserp p → p ≠ initSlot → (k.p_flags p).slotFree = true := by
    intro p hu hne
    rw [hflags, if_neg]
    · rfl
    · revert p
      decide
  let m : Machine ℕ := ⟨k, fun _ => ⟨8, 8, 2⟩, fun _ => ⟨14, 14, 0⟩, fun _ => false, 0, fun _ => 0⟩
  have honly : ∀ p, m.live p → p = initSlot := by
    intro p hp
    by_contra hne
    obtain ⟨hu, hf⟩ := Machine.live_iff.mp hp
    rw [show m.k = k from rfl, hothers p hu hne] at hf
    exact absurd hf (by decide)
  have hmap : k.p_map = fun _ => ⟨10, 10, 4⟩ := by
    obtain ⟨_, _, _, _, _, _, rfl⟩ := hb
    rfl
  have hshadow : k.p_shadow = fun _ => 0 := by
    obtain ⟨_, _, _, _, _, _, rfl⟩ := hb
    rfl
  refine ⟨m, ⟨hboot, fun p _ => ?_, fun p _ => congrFun hshadow p, fun p _ => ?_, ?_⟩, ?_, honly,
    hothers, hinit, hshadow, hmap, rfl, rfl⟩
  · show MapOk ⟨8, 8, 2⟩ (k.p_map p) ⟨14, 14, 0⟩
    rw [hmap]
    exact ⟨rfl, Nat.le_refl 14, rfl, rfl, by decide⟩
  · show 0 < 14 - (k.p_map p).mem_phys + 0
    rw [hmap]
    exact Nat.succ_pos 3
  · intro p q hp hq hne
    exact absurd ((honly p hp).trans (honly q hq).symm) hne
  · refine Machine.live_iff.mpr ⟨by decide, ?_⟩
    rw [show m.k = k from rfl, hinit]
    rfl

/-- The first user forks: it is the shadow of its child. -/
theorem shadow_families_fork : ∃ m₀ m : Machine ℕ, ShadowStart m₀ ∧
    Run ShadowStep m₀ [.block initSlot RECEIVING, .fork initSlot ⟨12, by decide⟩ 100 4] m ∧
    ShadowOk m ∧ (imagesOf m₀).owned + {((100, 4) : Span)} = (imagesOf m).owned := by
  obtain ⟨m₀, h₀, hlive, honly, hothers, hinit, hshadow, hmap, htext, hstack⟩ := initAlone_exists
  -- The first user waits for the memory manager.
  have hsig : ((m₀.k.p_flags initSlot).or RECEIVING).pending →
      ((m₀.k.p_flags initSlot).or RECEIVING).sigPending := by
    rw [hinit]
    decide
  obtain ⟨rq, hrq⟩ := h₀.boot.sched.ready
  obtain ⟨k₁, hb, -, -⟩ := @block_spec _ _ initSlot RECEIVING hrq (by decide) hsig
  have hre := block_reflagged hb
  have hflags := hre.flags
  rw [hinit] at hflags
  have hk₁ : k₁.p_shadow = (fun _ => 0) ∧ k₁.p_map = fun _ => ⟨10, 10, 4⟩ := by
    obtain ⟨_, _, _, _, _, rfl⟩ := hre
    exact ⟨hshadow, hmap⟩
  have h₁ : ShadowStep m₀ (.block initSlot RECEIVING) { m₀ with k := k₁ } :=
    ShadowStep.block (by decide) rfl hsig hb
  have hl₁ : ∀ p, Machine.live { m₀ with k := k₁ } p = m₀.live p := fun p => by
    refine congrFun (congrArg Images.live (imagesOf_reflagged (m := m₀) hre ?_)) p
    rw [hinit]
    rfl
  have hclicks : Machine.clicks { m₀ with k := k₁ } initSlot = 4 := by
    unfold Machine.clicks
    rw [hstack, hk₁.2]
    rfl
  have hfork : ShadowStep { m₀ with k := k₁ }
      (.fork initSlot ⟨12, by decide⟩ 100 (Machine.clicks { m₀ with k := k₁ } initSlot))
      (doFork { m₀ with k := k₁ } initSlot ⟨12, by decide⟩ 100).2 := by
    refine ShadowStep.fork ?_ ?_ (by decide) ?_ (by decide) (fun p hp => ?_) rfl
    · rw [hl₁]
      exact hlive
    · show (k₁.p_flags initSlot).receiving = true
      rw [hflags, Function.update_self]
      rfl
    · show (k₁.p_flags ⟨12, by decide⟩).slotFree = true
      rw [hflags, Function.update_of_ne (by decide)]
      exact hothers _ (by decide) (by decide)
    · rw [hl₁] at hp
      obtain rfl := honly p hp
      have hblock : (imagesOf { m₀ with k := k₁ }).block initSlot = (8, 6) := by
        have hs : (imagesOf { m₀ with k := k₁ }).shadow initSlot = 0 := congrFun hk₁.1 _
        rw [Images.block_real hs]
        show ((k₁.p_map initSlot).mem_phys - (m₀.text initSlot).mem_len,
          Machine.clicks { m₀ with k := k₁ } initSlot + (m₀.text initSlot).mem_len) = (8, 6)
        rw [hclicks, hk₁.2, htext]
        rfl
      rw [hblock, hclicks]
      intro c hc
      simp only [Span.has_iff] at hc
      omega
  rw [hclicks] at hfork
  have hrun := (Run.single h₁).snoc hfork
  obtain ⟨hok, hacc, -⟩ := shadow_families h₀ hrun
  refine ⟨m₀, _, h₀, hrun, hok, ?_⟩
  simpa [supplied, returned] using hacc

end Minix.Kernel
