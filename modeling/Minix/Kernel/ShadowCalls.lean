import Minix.Kernel.Boot
import Minix.Kernel.Images
import Minix.Kernel.ShadowQueue

/-!
# What the calls do to the families

`imagesOf` forgets of the machine what has nothing to do with process images. Each function of
`Shadow.lean` has one specification here: it is the operation of `Images.lean` of that name, and
keeps the ready queues in order.
-/

namespace Minix.Kernel

open Lib

variable {γ : Type}

/-- A user process whose slot is in use. -/
def Machine.live (m : Machine γ) (p : Slot) : Bool := isuserp p && !(m.k.p_flags p).slotFree

/-- The images of the machine. -/
def imagesOf (m : Machine γ) : Images γ where
  live := m.live
  home p := (m.k.p_map p).mem_phys
  text p := (m.text p).mem_len
  clicks := m.clicks
  shadow := m.k.p_shadow
  core := m.core

/-- A map in which data follow text, the stack follows the data, and addresses are physical. -/
structure MapOk (t d s : MemMap) : Prop where
  text : t.mem_phys + t.mem_len = d.mem_phys
  stack : d.mem_phys + d.mem_len ≤ s.mem_phys
  data_vir : d.mem_vir = d.mem_phys
  stack_vir : s.mem_vir = s.mem_phys
  /-- Clicks are numbers of sixteen bits. -/
  fits : s.mem_phys + s.mem_len < 2 ^ 16

/-- The maps of the live users are in order. -/
def MapsOk (m : Machine γ) : Prop :=
  ∀ p, m.live p → MapOk (m.text p) (m.k.p_map p) (m.stack p)

variable {m m' : Machine γ} {p q c parent : Slot} {b : ℕ} {blk : Span} {out : Slot → Prop}
  {t d s : MemMap} {k k' : State}

/-- Who is live is a user whose slot is in use. -/
theorem Machine.live_iff : m.live p = true ↔
    isuserp p = true ∧ (m.k.p_flags p).slotFree = false := by
  unfold Machine.live
  rw [Bool.and_eq_true, Bool.not_eq_true']

/-- Users are neither tasks nor the entries that are never ready. -/
theorem isuserp_ne (h : isuserp p = true) : p ≠ idleSlot ∧ p ≠ hardwareSlot ∧
    istaskp p = false := by
  unfold isuserp at h
  have hp : NR_TASKS + LOW_USER ≤ p.val := by simpa using h
  unfold NR_TASKS LOW_USER at hp
  refine ⟨?_, ?_, ?_⟩
  · rintro rfl
    exact absurd hp (by decide)
  · rintro rfl
    exact absurd hp (by decide)
  · unfold istaskp NR_TASKS
    simp only [Bool.and_eq_false_iff, decide_eq_false_iff_not]
    exact Or.inl (by omega)

/-- The process numbers of users are accepted. -/
theorem isuserp_isoksusern (h : isuserp p = true) : isoksusern p = true := by
  unfold isuserp at h
  unfold isoksusern
  have hp : NR_TASKS + LOW_USER ≤ p.val := by simpa using h
  exact decide_eq_true (by omega)

/-- The entries that the loops over the users visit. -/
theorem mem_userSlots : p ∈ userSlots ↔ isuserp p = true := by
  unfold userSlots
  rw [List.mem_filter]
  exact and_iff_right (List.mem_finRange p)

/-- The search for a process that shares an image. -/
theorem sharesWith_iff (hq : isuserp q = true) : sharesWith m.k p q = true ↔
    m.live q = true ∧ q ≠ p ∧ (imagesOf m).home q = (imagesOf m).home p := by
  unfold sharesWith imagesOf
  rw [Machine.live_iff]
  simp [hq, and_assoc]

/-- The first process that shares the image of `p` is an heir of it. -/
theorem heir_find : (imagesOf m).Heir p (userSlots.find? (sharesWith m.k p)) := by
  cases hf : userSlots.find? (sharesWith m.k p) with
  | some q =>
    have hq := mem_userSlots.mp (List.mem_of_find?_eq_some hf)
    exact (sharesWith_iff hq).mp (List.find?_some hf)
  | none =>
    intro q hlive hne hh
    have hq := (Machine.live_iff.mp hlive).1
    have := List.find?_eq_none.mp hf q (mem_userSlots.mpr hq)
    exact this ((sharesWith_iff hq).mpr ⟨hlive, hne, hh⟩)

/-- Queues do not matter to the images. -/
theorem imagesOf_resched (h : Resched k k') : imagesOf { m with k := k' } =
    imagesOf { m with k := k } := by
  obtain ⟨_, _, _, _, _, rfl⟩ := h
  rfl

/-! ## `sys_fork` -/

/-- A flag that is never cleared is still set. -/
theorem PFlags.clear_ne_zero {f g : PFlags} (hf : f.receiving = true) (hg : g.receiving = false) :
    f.clear g ≠ PFlags.zero := by
  intro e
  have := congrArg PFlags.receiving e
  simp [PFlags.clear, PFlags.zero, hf, hg] at this

/-- The child of a process that waits for the memory manager is not queued. -/
theorem forkSlot_ready (h : ReadyOk k) (hp : (k.p_flags p).receiving = true)
    (hc : (k.p_flags c).slotFree = true) : ReadyOk (forkSlot k p c) := by
  obtain ⟨rq, hrq⟩ := h
  have hc0 : k.p_flags c ≠ PFlags.zero := by
    intro e
    rw [e] at hc
    exact absurd hc (by decide)
  have hf0 : (k.p_flags p).clear NOT_INHERITED ≠ PFlags.zero := PFlags.clear_ne_zero hp (by decide)
  have hset := hrq.setFlags hc0 hf0 (by simp [PFlags.clear, NOT_INHERITED, PFlags.or, PENDING])
  have hok : OkBut (k.setFlags c ((k.p_flags p).clear NOT_INHERITED)) fun _ => False :=
    ReadyOk.but ⟨rq, hset⟩
  have hfork : OkBut (forkSlot k p c) fun _ => False := by
    refine hok.congr ?_ (fun x _ hx => ?_) rfl rfl
    · funext x
      simp only [forkSlot, copySlot, State.setFlags, Function.update_self]
      by_cases hx : x = c
      · subst hx
        rw [Function.update_self, Function.update_self]
      · rw [Function.update_of_ne hx, Function.update_of_ne hx, Function.update_of_ne hx]
    · have hxc : x ≠ c := by
        rintro rfl
        rw [State.setFlags_self] at hx
        exact hf0 hx
      exact ⟨Function.update_of_ne hxc _ _, Function.update_of_ne hxc _ _⟩
  exact hfork.ready fun _ => id

/-- `sys_fork` forks the image of the parent. -/
theorem doFork_spec (h : ReadyOk m.k) (hp : m.live p = true) (hc : isuserp c = true)
    (hfree : (m.k.p_flags c).slotFree = true) (hr : (m.k.p_flags p).receiving = true) :
    (doFork m p c b).1 = OK ∧ imagesOf (doFork m p c b).2 = (imagesOf m).fork p c b ∧
      ReadyOk (doFork m p c b).2.k := by
  obtain ⟨hup, hpf⟩ := Machine.live_iff.mp hp
  have hne : p ≠ c := by
    rintro rfl
    rw [hfree] at hpf
    exact absurd hpf (by decide)
  have hgood : (!isoksusern p || !isoksusern c) = false := by
    rw [isuserp_isoksusern hup, isuserp_isoksusern hc]
    rfl
  unfold doFork
  rw [hgood]
  simp only [Bool.false_eq_true, if_false]
  refine ⟨trivial, ?_, ?_⟩
  · unfold imagesOf Images.fork mkshadow
    simp only [Images.mk.injEq]
    refine ⟨?_, ?_, ?_, ?_, rfl, ?_⟩
    · funext x
      by_cases hx : x = c
      · subst hx
        simp only [Machine.live, State.setShadow, forkSlot, copySlot, Function.update_self, hc,
          Bool.true_and, Bool.not_eq_true']
        simp [PFlags.clear, hpf]
      · simp only [Machine.live, State.setShadow, forkSlot, copySlot, Function.update_of_ne hx]
    · funext x
      by_cases hx : x = c
      · subst hx
        simp [State.setShadow, forkSlot, copySlot]
      · simp [State.setShadow, forkSlot, copySlot, hx]
    · funext x
      by_cases hx : x = c
      · subst hx
        simp
      · simp [hx]
    · funext x
      unfold Machine.clicks
      by_cases hx : x = c
      · subst hx
        simp [State.setShadow, forkSlot, copySlot]
      · simp [State.setShadow, forkSlot, copySlot, hx]
    · unfold Images.base Machine.clicks
      simp [forkSlot, copySlot, hne]
  · have hok := (forkSlot_ready h hr hfree).but
    refine (hok.setShadow (Or.inr ?_) b).ready fun _ => id
    simp only [forkSlot, copySlot, Function.update_of_ne hne]
    intro e
    rw [e] at hr
    exact absurd hr (by decide)

/-- The maps of parent and child are the parent's. -/
theorem doFork_maps (h : MapsOk m) (hp : m.live p = true) (hc : isuserp c = true)
    (hfree : (m.k.p_flags c).slotFree = true) : MapsOk (doFork m p c b).2 := by
  obtain ⟨hup, hpf⟩ := Machine.live_iff.mp hp
  have hgood : (!isoksusern p || !isoksusern c) = false := by
    rw [isuserp_isoksusern hup, isuserp_isoksusern hc]
    rfl
  unfold doFork
  rw [hgood]
  simp only [Bool.false_eq_true, if_false]
  intro x hx
  by_cases hxc : x = c
  · subst hxc
    simpa [mkshadow, State.setShadow, forkSlot, copySlot] using h p hp
  · have hlive : m.live x = true := by
      simpa [Machine.live, mkshadow, State.setShadow, forkSlot, copySlot, hxc] using hx
    simpa [mkshadow, State.setShadow, forkSlot, copySlot, hxc] using h x hlive

/-! ## Giving up an image -/

/-- Queueing and changing a shadow do not meet. -/
theorem Resched.setShadow (h : Resched k k') (x : Slot) (n : ℕ) :
    Resched (k.setShadow x n) (k'.setShadow x n) := by
  obtain ⟨_, _, _, _, _, rfl⟩ := h
  exact ⟨_, _, _, _, _, rfl⟩

/-- The shadows are not the queues. -/
theorem Resched.shadow (h : Resched k k') : k'.p_shadow = k.p_shadow := by
  obtain ⟨_, _, _, _, _, rfl⟩ := h
  rfl

/-- The maps are not the queues. -/
theorem Resched.map (h : Resched k k') : k'.p_map = k.p_map := by
  obtain ⟨_, _, _, _, _, rfl⟩ := h
  rfl

/-- What `rmshadow` leaves as it is. -/
structure MapsKept (m m' : Machine γ) : Prop where
  flags : m'.k.p_flags = m.k.p_flags
  map : m'.k.p_map = m.k.p_map
  text : m'.text = m.text
  stack : m'.stack = m.stack

/-- A process that is real becomes so on another queue. -/
theorem requeue_spec (h : OkBut k out) (hq : ¬out q) (n : ℕ) :
    ∃ k₁ k₂, unreadyIf k q = some k₁ ∧ readyIf (k₁.setShadow q n) q = some k₂ ∧
      Resched (k.setShadow q n) k₂ ∧ OkBut k₂ out := by
  obtain ⟨k₁, h₁, hr₁, hO₁⟩ := h.unreadyIf q
  have hO₂ := hO₁.setShadow (Or.inl (Or.inr rfl)) n
  obtain ⟨k₂, h₂, hr₂, hO₃⟩ := hO₂.readyIf (p := q) (Or.inr rfl)
  refine ⟨k₁, k₂, h₁, h₂, (hr₁.setShadow q n).trans hr₂, hO₃.iff fun x => ?_⟩
  constructor
  · intro hx
    exact ⟨Or.inl hx, fun e => hq (e ▸ hx)⟩
  · rintro ⟨hx | rfl, hne⟩
    · exact hx
    · exact absurd rfl hne

/-- `rmshadow` is the exit of the process from its family, but for its slot, which is still in
use. -/
theorem rmshadow_spec (hO : OkBut m.k out) (hout : ∀ x, out x → x = p)
    (hp : out p ∨ m.k.p_flags p ≠ PFlags.zero)
    (hmap : MapOk (m.text p) (m.k.p_map p) (m.stack p)) (h : rmshadow m p = some (blk, m')) :
    ∃ heir, (imagesOf m).Heir p heir ∧ blk = (imagesOf m).freed p heir ∧
      { imagesOf m' with live := Function.update m.live p false } =
        (imagesOf m).leave p heir ∧
      OkBut m'.k out ∧ MapsKept m m' := by
  refine ⟨_, heir_find, ?_⟩
  unfold rmshadow at h
  dsimp only at h
  by_cases hs : m.k.p_shadow p ≠ 0
  · rw [if_pos hs] at h
    obtain ⟨rfl, rfl⟩ := Prod.mk.inj (Option.some.inj h)
    refine ⟨(if_pos hs).symm, ?_, hO.setShadow hp 0, ⟨rfl, rfl, rfl, rfl⟩⟩
    unfold Images.leave
    rw [if_pos (by exact hs)]
    rfl
  · rw [if_neg hs] at h
    have hs' : ¬(imagesOf m).shadow p ≠ 0 := hs
    unfold Images.leave Images.freed
    rw [if_neg hs', if_neg hs']
    cases hf : userSlots.find? (sharesWith m.k p) with
    | none =>
      rw [hf] at h
      obtain ⟨rfl, rfl⟩ := Prod.mk.inj (Option.some.inj h)
      refine ⟨?_, rfl, hO, ⟨rfl, rfl, rfl, rfl⟩⟩
      have hbase : (m.text p).mem_phys = (m.k.p_map p).mem_phys - (m.text p).mem_len := by
        have := hmap.text
        omega
      rw [hbase]
      rfl
    | some q =>
      have hheir := heir_find (m := m) (p := p)
      rw [hf] at h hheir
      dsimp only at h
      split_ifs at h
      have hqp : ¬out q := fun ho => hheir.2.1 (hout q ho)
      obtain ⟨k₁, k₂, h₁, h₂, hre, hO₂⟩ := requeue_spec hO hqp 0
      rw [h₁, Option.bind_eq_bind, Option.bind_some, h₂, Option.bind_some] at h
      obtain ⟨rfl, rfl⟩ := Prod.mk.inj (Option.some.inj h)
      refine ⟨rfl, ?_, hO₂, ⟨hre.flags, hre.map, rfl, rfl⟩⟩
      obtain ⟨_, _, _, _, _, rfl⟩ := hre
      rfl

/-! ## `sys_xit` -/

/-- The loop of `do_xit` changes queues of senders only. -/
theorem dropSender_frame {l : List Slot} (h : dropSender p l k = some k') :
    ∃ callerq sendlink, k' = { k with p_callerq := callerq, p_sendlink := sendlink } := by
  induction l generalizing k with
  | nil =>
    obtain rfl := Option.some.inj h
    exact ⟨_, _, rfl⟩
  | cons x l ih =>
    unfold dropSender at h
    split at h
    · exact ih h
    · split_ifs at h
      · obtain rfl := Option.some.inj h
        exact ⟨_, _, rfl⟩
      · split at h
        · simp at h
        · exact ih h
        · obtain ⟨callerq, sendlink, rfl⟩ := ih h
          exact ⟨_, _, rfl⟩

/-- The end of `do_xit` leaves the ready queues in order, without the process. -/
theorem OkBut.xitEnd (h : OkBut k fun x => x = p)
    (callerq sendlink : Slot → Option Slot) :
    ReadyOk (xitEnd { k with p_callerq := callerq, p_sendlink := sendlink } p) := by
  have hset := h.setFlags (p := p) (f := SLOT_FREE) rfl (by decide) (by decide)
  have hx : OkBut (Kernel.xitEnd { k with p_callerq := callerq, p_sendlink := sendlink } p)
      fun x => x = p ∧ x ≠ p :=
    hset.congr rfl (fun _ _ _ => ⟨rfl, rfl⟩) rfl rfl
  exact hx.ready fun x hx => hx.2 hx.1

/-- `sys_xit` is the exit of the process from its family. -/
theorem doXit_spec (hk : ReadyOk m.k) (hmaps : MapsOk m) (hp : m.live p = true)
    (h : doXit m parent p = some (OK, some blk, m')) :
    ∃ heir, (imagesOf m).Heir p heir ∧ blk = (imagesOf m).freed p heir ∧
      imagesOf m' = (imagesOf m).leave p heir ∧ ReadyOk m'.k ∧ MapsOk m' := by
  unfold doXit at h
  split_ifs at h
  · simp [OK, E_BAD_PROC] at h
  obtain ⟨k₁, h₁, h⟩ := Option.bind_eq_some_iff.mp h
  obtain ⟨⟨blk', m₂⟩, h₂, h⟩ := Option.bind_eq_some_iff.mp h
  obtain ⟨k₃, h₃, h⟩ := Option.bind_eq_some_iff.mp h
  simp only [Option.some.injEq, Prod.mk.injEq, true_and] at h
  obtain ⟨rfl, rfl⟩ := h
  obtain ⟨k₁', h₁', hr₁, hO₁⟩ := hk.but.unreadyIf p
  obtain rfl : k₁' = k₁ := Option.some.inj (h₁'.symm.trans h₁)
  have hO₁ : OkBut k₁' fun x => x = p := hO₁.iff fun x => by simp
  have himg : imagesOf { m with k := k₁' } = imagesOf m := imagesOf_resched hr₁
  have hmap : MapOk (m.text p) (k₁'.p_map p) (m.stack p) := by
    rw [hr₁.map]
    exact hmaps p hp
  obtain ⟨heir, hheir, hblk, hleave, hO₂, hkept⟩ :=
    rmshadow_spec hO₁ (fun x hx => hx) (Or.inl rfl) hmap h₂
  have hframe : ∃ callerq sendlink,
      k₃ = { m₂.k with p_callerq := callerq, p_sendlink := sendlink } := by
    unfold unqueueSender at h₃
    split_ifs at h₃
    · exact dropSender_frame h₃
    · obtain rfl := Option.some.inj h₃
      exact ⟨_, _, rfl⟩
  obtain ⟨callerq, sendlink, rfl⟩ := hframe
  have hflags : m₂.k.p_flags = m.k.p_flags := hkept.flags.trans hr₁.flags
  rw [himg] at hheir hblk hleave
  -- The slot is free at the end, which is when the process stops being live.
  have hlive : ∀ x, (isuserp x && !(Function.update m₂.k.p_flags p
      { PFlags.zero with slotFree := true } x).slotFree) = Function.update m.live p false x := by
    intro x
    by_cases hx : x = p
    · rw [hx, Function.update_self, Function.update_self]
      exact Bool.and_false _
    · rw [Function.update_of_ne hx, Function.update_of_ne hx, hflags]
      rfl
  have hmachine : (Machine.live { m with k := k₁' }) = m.live :=
    congrArg Images.live himg
  rw [hmachine] at hleave
  refine ⟨heir, hheir, hblk, ?_, ?_, ?_⟩
  · rw [← hleave]
    unfold imagesOf
    rw [Images.mk.injEq]
    exact ⟨funext hlive, rfl, rfl, rfl, rfl, rfl⟩
  · exact hO₂.xitEnd callerq sendlink
  · intro x hx
    have hx' := (hlive x).symm.trans hx
    have hne : x ≠ p := by
      rintro rfl
      rw [Function.update_self] at hx'
      exact absurd hx' (by decide)
    rw [Function.update_of_ne hne] at hx'
    have hm := hmaps x hx'
    show MapOk (m₂.text x) (m₂.k.p_map x) (m₂.stack x)
    rw [hkept.text, hkept.stack, hkept.map]
    show MapOk (m.text x) (k₁'.p_map x) (m.stack x)
    rw [hr₁.map]
    exact hm

/-! ## `sys_fresh` and `sys_newmap` -/

/-- A new map does not matter to the queues. -/
theorem doNewmap_ready (h : ReadyOk m.k) (t d s : MemMap) : ReadyOk (doNewmap m p t d s).2.k :=
  h.congr rfl rfl rfl rfl rfl

/-- A new map that is in order. -/
theorem doNewmap_maps (h : ∀ x, x ≠ p → m.live x = true →
    MapOk (m.text x) (m.k.p_map x) (m.stack x)) (hmap : MapOk t d s) :
    MapsOk (doNewmap m p t d s).2 := by
  intro x hx
  unfold doNewmap
  by_cases hxp : x = p
  · subst hxp
    simpa using hmap
  · simpa [hxp] using h x hxp hx

/-- A fresh image replaces the one that the process gives up. -/
theorem doFresh_spec [Zero γ] {offset : ℕ} (hk : ReadyOk m.k) (hmaps : MapsOk m)
    (hp : m.live p = true) (hr : m.k.p_flags p ≠ PFlags.zero) (hmap : MapOk t d s)
    (h : doFresh m p t d s offset = some (OK, some blk, m')) :
    ∃ heir, (imagesOf m).Heir p heir ∧ blk = (imagesOf m).freed p heir ∧
      imagesOf m' = ((imagesOf m).leave p heir).fresh p d.mem_phys t.mem_len
        (s.mem_phys - d.mem_phys + s.mem_len) offset ∧
      ReadyOk m'.k ∧ MapsOk m' := by
  unfold doFresh at h
  split_ifs at h
  · simp [OK, E_BAD_PROC] at h
  obtain ⟨⟨blk', m₂⟩, h₂, h⟩ := Option.bind_eq_some_iff.mp h
  simp only [Option.some.injEq, Prod.mk.injEq, true_and] at h
  obtain ⟨rfl, rfl⟩ := h
  obtain ⟨heir, hheir, hblk, hleave, hO, hkept⟩ :=
    rmshadow_spec hk.but (fun _ hx => hx.elim) (Or.inr hr) (hmaps p hp) h₂
  have hlive : m₂.live = m.live := by
    funext x
    unfold Machine.live
    rw [hkept.flags]
  refine ⟨heir, hheir, hblk, ?_, doNewmap_ready (hO.ready fun _ => id) t d s, ?_⟩
  · rw [← hleave]
    unfold imagesOf Images.fresh Images.enter doNewmap
    simp only [Function.update_self, Function.update_idem]
    rw [Images.mk.injEq]
    refine ⟨?_, ?_, ?_, ?_, rfl, ?_⟩
    · show m₂.live = Function.update m.live p true
      rw [hlive, ← hp, Function.update_eq_self]
    · funext x
      by_cases hx : x = p
      · subst hx
        rw [Function.update_self, Function.update_self]
      · rw [Function.update_of_ne hx, Function.update_of_ne hx]
    · funext x
      by_cases hx : x = p
      · subst hx
        rw [Function.update_self, Function.update_self]
      · rw [Function.update_of_ne hx, Function.update_of_ne hx]
    · funext x
      unfold Machine.clicks
      by_cases hx : x = p
      · subst hx
        simp only [Function.update_self]
      · simp only [Function.update_of_ne hx]
    · unfold Machine.clicks
      simp only [Function.update_self]
  · refine doNewmap_maps (fun x _ hx => ?_) hmap
    have hx' : m.live x = true := (congrFun hlive x).symm.trans hx
    rw [hkept.text, hkept.stack, hkept.map]
    exact hmaps x hx'

/-! ## `adjust` -/

/-- Adjusting keeps a map in order, if the data segment is to end below the last click of the
address space, and changes neither where the image is nor its size. -/
theorem adjust_spec {data_clicks sp_click : ℕ} {d' s' : MemMap} (hmap : MapOk t d s)
    (hdata : d.mem_vir + data_clicks < 2 ^ 16)
    (h : adjust d s data_clicks sp_click = some (d', s')) :
    MapOk t d' s' ∧ d'.mem_phys = d.mem_phys ∧
      s'.mem_phys - d'.mem_phys + s'.mem_len = s.mem_phys - d.mem_phys + s.mem_len := by
  obtain ⟨htext, hstack, hdv, hsv, hfits⟩ := hmap
  unfold adjust at h
  dsimp only at h
  generalize (if sp_click < s.mem_vir then sp_click else s.mem_vir) = lower at h
  split_ifs at h with h₁ h₂ h₃
  simp only [Option.some.injEq, Prod.mk.injEq] at h
  obtain ⟨rfl, rfl⟩ := h
  rw [Nat.mod_eq_of_lt hdata] at h₃
  dsimp only at *
  refine ⟨⟨htext, ?_, hdv, ?_, ?_⟩, rfl, ?_⟩
  · dsimp only
    omega
  · dsimp only
    omega
  · dsimp only
    omega
  · omega

/-- Adjusting changes no image. -/
theorem adjustProc_spec {data_clicks sp_click : ℕ} (hk : ReadyOk m.k) (hmaps : MapsOk m)
    (hp : m.live p = true) (hdata : (m.k.p_map p).mem_vir + data_clicks < 2 ^ 16) :
    imagesOf (adjustProc m p data_clicks sp_click) = imagesOf m ∧
      ReadyOk (adjustProc m p data_clicks sp_click).k ∧
      MapsOk (adjustProc m p data_clicks sp_click) := by
  unfold adjustProc
  split_ifs
  · exact ⟨rfl, hk, hmaps⟩
  · cases ha : adjust (m.k.p_map p) (m.stack p) data_clicks sp_click with
    | none => exact ⟨rfl, hk, hmaps⟩
    | some ds =>
      obtain ⟨d', s'⟩ := ds
      obtain ⟨hmap, hphys, hclicks⟩ := adjust_spec (hmaps p hp) hdata ha
      refine ⟨?_, doNewmap_ready hk _ _ _, doNewmap_maps (fun x _ hx => hmaps x hx) hmap⟩
      unfold imagesOf doNewmap
      dsimp only
      rw [Images.mk.injEq]
      refine ⟨rfl, ?_, ?_, ?_, rfl, rfl⟩
      · funext x
        by_cases hx : x = p
        · subst hx
          rw [Function.update_self, hphys]
        · rw [Function.update_of_ne hx]
      · rw [Function.update_eq_self]
      · funext x
        unfold Machine.clicks
        by_cases hx : x = p
        · subst hx
          simp only [Function.update_self]
          exact hclicks
        · simp only [Function.update_of_ne hx]

/-! ## `unshadow` -/

/-- The search for the real member of a family. -/
theorem find_real (h : userSlots.find? (fun q => sharesWith m.k p q && m.k.p_shadow q == 0) =
    some q) : m.live q = true ∧ q ≠ p ∧ (imagesOf m).home q = (imagesOf m).home p ∧
      m.k.p_shadow q = 0 := by
  have hq := mem_userSlots.mp (List.mem_of_find?_eq_some h)
  have hfound := List.find?_some h
  rw [Bool.and_eq_true, beq_iff_eq] at hfound
  obtain ⟨hlive, hne, hh⟩ := (sharesWith_iff hq).mp hfound.1
  exact ⟨hlive, hne, hh, hfound.2⟩

/-- Two processes change their shadows, and their queues with them. -/
theorem flip_queues {k₁ k₂ k₃ k₄ : State} (h : ReadyOk k) (h0 : k.p_flags p = PFlags.zero)
    (hne : q ≠ p) (h₁ : unready k p = some k₁) (h₂ : unreadyIf k₁ q = some k₂)
    (h₃ : ready ((k₂.setShadow q (k₂.p_shadow p)).setShadow p 0) p = some k₃)
    (h₄ : readyIf k₃ q = some k₄) :
    ReadyOk k₄ ∧ Resched ((k.setShadow q (k.p_shadow p)).setShadow p 0) k₄ := by
  obtain ⟨k₁', h₁', hr₁, hO₁⟩ := h.but.unready p
  obtain rfl : k₁' = k₁ := Option.some.inj (h₁'.symm.trans h₁)
  obtain ⟨k₂', h₂', hr₂, hO₂⟩ := hO₁.unreadyIf q
  obtain rfl : k₂' = k₂ := Option.some.inj (h₂'.symm.trans h₂)
  have hO := (hO₂.setShadow (p := q) (Or.inl (Or.inr rfl)) (k₂'.p_shadow p)).setShadow (p := p)
    (Or.inl (Or.inl (Or.inr rfl))) 0
  have hr := hr₁.trans hr₂
  have hz : ((k₂'.setShadow q (k₂'.p_shadow p)).setShadow p 0).p_flags p = PFlags.zero := by
    show k₂'.p_flags p = _
    rw [hr.flags, h0]
  obtain ⟨k₃', h₃', hr₃, hO₃⟩ := hO.pushReady (p := p) (Or.inl (Or.inr rfl)) hz
  obtain rfl : k₃' = k₃ := Option.some.inj (h₃'.symm.trans h₃)
  obtain ⟨k₄', h₄', hr₄, hO₄⟩ := hO₃.readyIf (p := q) ⟨Or.inr rfl, hne⟩
  obtain rfl : k₄' = k₄ := Option.some.inj (h₄'.symm.trans h₄)
  refine ⟨hO₄.ready fun x hx => ?_, ?_⟩
  · rcases hx with ⟨⟨(hx | hx) | hx, hxp⟩, hxq⟩
    · exact hx
    · exact hxp hx
    · exact hxq hx
  · have hsh : k₂'.p_shadow = k.p_shadow := hr.shadow
    rw [hsh] at hr₃
    exact ((hr.setShadow q (k.p_shadow p)).setShadow p 0).trans (hr₃.trans hr₄)

/-- `unshadow` does nothing to images, or flips those of a shadow and the real process of its
family. -/
theorem unshadow_spec (hk : ReadyOk m.k) (h0 : m.k.p_flags p = PFlags.zero)
    (h : unshadow m p = some m') :
    (imagesOf m' = imagesOf m ∨ ∃ q, m.live q = true ∧ m.k.p_shadow q = 0 ∧
      (imagesOf m).home q = (imagesOf m).home p ∧ imagesOf m' = (imagesOf m).flip p q) ∧
      ReadyOk m'.k ∧ MapsKept m m' := by
  unfold unshadow at h
  split_ifs at h
  · obtain rfl := Option.some.inj h
    exact ⟨Or.inl rfl, hk, ⟨rfl, rfl, rfl, rfl⟩⟩
  · obtain rfl := Option.some.inj h
    exact ⟨Or.inl rfl, hk, ⟨rfl, rfl, rfl, rfl⟩⟩
  · split at h
    · simp at h
    · rename_i q hq
      obtain ⟨hlq, hne, hh, hsq⟩ := find_real hq
      split_ifs at h
      · obtain rfl := Option.some.inj h
        exact ⟨Or.inl rfl, hk, ⟨rfl, rfl, rfl, rfl⟩⟩
      · obtain ⟨k₁, h₁, h⟩ := Option.bind_eq_some_iff.mp h
        obtain ⟨k₂, h₂, h⟩ := Option.bind_eq_some_iff.mp h
        obtain ⟨k₃, h₃, h⟩ := Option.bind_eq_some_iff.mp h
        obtain ⟨k₄, h₄, h⟩ := Option.bind_eq_some_iff.mp h
        obtain rfl := Option.some.inj h
        obtain ⟨hready, hre⟩ := flip_queues hk h0 hne h₁ h₂ h₃ h₄
        refine ⟨Or.inr ⟨q, hlq, hsq, hh, ?_⟩, hready, ⟨hre.flags, hre.map, rfl, rfl⟩⟩
        obtain ⟨_, _, _, _, _, rfl⟩ := hre
        rfl

end Minix.Kernel
