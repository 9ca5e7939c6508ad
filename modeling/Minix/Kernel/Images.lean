import Minix.Kernel.Shadow
import Mathlib.Algebra.BigOperators.Group.Finset.Basic
import Mathlib.Algebra.Order.Group.Multiset
import Minix.Lib.Counts

/-!
# Families of process images

What the shadows are for, without the process table: each live process has an image of its own,
although the members of a family all believe theirs to be at the same place, `home`. One member has
it there, behind the text of the program, and the others have theirs in blocks elsewhere. `block` is
the block of memory that a process owns, and `Families` is the invariant of these blocks.

There is one operation for each thing that can happen to a family, with three lemmas: it keeps the
invariant, it moves no image but those that it is to change, and the blocks of the live processes
balance with those that were handed in and out.
-/

namespace Minix.Kernel

open Lib

variable {γ : Type}

/-- Who lives, where the images are, and what memory contains. -/
structure Images (γ : Type) where
  live : Slot → Bool
  /-- Where a process finds its image when that is not shadowed. -/
  home : Slot → ℕ
  /-- The clicks of the text in front of the image. -/
  text : Slot → ℕ
  /-- The size of the image. -/
  clicks : Slot → ℕ
  /-- Where the image is when it is shadowed, and 0 otherwise. -/
  shadow : Slot → ℕ
  core : ℕ → γ

namespace Images

/-- Where the image of a process is. -/
def base (I : Images γ) (p : Slot) : ℕ := if I.shadow p ≠ 0 then I.shadow p else I.home p

/-- The contents of the image of a process. -/
def image (I : Images γ) (p : Slot) (i : ℕ) : γ := I.core (I.base p + i)

/-- The block that a process owns: its shadow, or the text and the image of its family. -/
def block (I : Images γ) (p : Slot) : Span :=
  if I.shadow p ≠ 0 then (I.shadow p, I.clicks p)
  else (I.home p - I.text p, I.clicks p + I.text p)

/-- The blocks of the live processes. -/
def owned (I : Images γ) : Multiset Span := ∑ p, if I.live p then {I.block p} else 0

/-- `p` has become the shadow of its child `c`, in the block at `b`. -/
def fork (I : Images γ) (p c : Slot) (b : ℕ) : Images γ where
  live := Function.update I.live c true
  home := Function.update I.home c (I.home p)
  text := Function.update I.text c (I.text p)
  clicks := Function.update I.clicks c (I.clicks p)
  shadow := Function.update (Function.update I.shadow c (I.shadow p)) p b
  core := copyclicks I.core (I.base p) b (I.clicks p)

/-- Which process is to have the place of `p`: another of its family, if there is one. -/
def Heir (I : Images γ) (p : Slot) : Option Slot → Prop
  | some q => I.live q ∧ q ≠ p ∧ I.home q = I.home p
  | none => ∀ q, I.live q → q ≠ p → I.home q ≠ I.home p

/-- `p` has gone; if it was real, its heir has the place. -/
def leave (I : Images γ) (p : Slot) (heir : Option Slot) : Images γ :=
  let J := { I with live := Function.update I.live p false }
  if I.shadow p ≠ 0 then { J with shadow := Function.update I.shadow p 0 }
  else
    match heir with
    | some q => { J with
        shadow := Function.update I.shadow q 0
        core := copyclicks I.core (I.shadow q) (I.home p) (I.clicks p) }
    | none => J

/-- The block that nobody owns when `p` has gone. -/
def freed (I : Images γ) (p : Slot) (heir : Option Slot) : Span :=
  if I.shadow p ≠ 0 then (I.shadow p, I.clicks p)
  else
    match heir with
    | some q => (I.shadow q, I.clicks p)
    | none => (I.home p - I.text p, I.clicks p + I.text p)

/-- `p` has an image in a block of its own, behind `text` clicks of text. -/
def enter (I : Images γ) (p : Slot) (home text clicks : ℕ) : Images γ :=
  { I with
    live := Function.update I.live p true
    home := Function.update I.home p home
    text := Function.update I.text p text
    clicks := Function.update I.clicks p clicks }

/-- `p` has a fresh image, which is zero from `offset` on. -/
def fresh [Zero γ] (I : Images γ) (p : Slot) (home text clicks offset : ℕ) : Images γ :=
  { I.enter p home text clicks with
    core := zeroclicks I.core (home + offset) (clicks - offset) }

/-- The images of the shadowed `p` and the real `q` have changed places. -/
def flip (I : Images γ) (p q : Slot) : Images γ :=
  { I with
    shadow := Function.update (Function.update I.shadow q (I.shadow p)) p 0
    core := flipclicks I.core (I.shadow p) (I.home q) (I.clicks q) }

end Images

/-- Each live process owns a block, and each family has one that is not shadowed. -/
structure Families (I : Images γ) : Prop where
  /-- The text is in front of the image, which is not empty. -/
  low : ∀ p, I.live p → I.text p ≤ I.home p ∧ 0 < I.clicks p
  /-- The members of a family are copies of each other. -/
  alike : ∀ p q, I.live p → I.live q → I.home p = I.home q →
    I.text p = I.text q ∧ I.clicks p = I.clicks q
  /-- No click has two owners. -/
  apart : ∀ p q, I.live p → I.live q → p ≠ q → (I.block p).Apart (I.block q)
  /-- Somebody is at home. -/
  real : ∀ p, I.live p → ∃ q, I.live q ∧ I.shadow q = 0 ∧ I.home q = I.home p

variable {I J : Images γ} {p q c x y : Slot} {b i n : ℕ} {heir : Option Slot}

/-! ## Blocks and images -/

/-- The image of a process is in the block that it owns. -/
theorem Families.mem_block (h : Families I) (hp : I.live p) (hi : i < I.clicks p) :
    (I.block p).has (I.base p + i) = true := by
  have hlow := (h.low p hp).1
  rw [Span.has_iff]
  unfold Images.block Images.base
  split_ifs
  · constructor <;> dsimp only <;> omega
  · constructor <;> dsimp only <;> omega

/-- A family has one real member only. -/
theorem Families.real_unique (h : Families I) (hp : I.live p) (hq : I.live q)
    (hsp : I.shadow p = 0) (hsq : I.shadow q = 0) (hh : I.home p = I.home q) : p = q := by
  by_contra hne
  have hbp := h.mem_block hp (h.low p hp).2
  have hbq := h.mem_block hq (h.low q hq).2
  unfold Images.base at hbp hbq
  rw [if_neg (by simp [hsp])] at hbp
  rw [if_neg (by simp [hsq])] at hbq
  rw [hh] at hbp
  exact h.apart p q hp hq hne _ ⟨hbp, hbq⟩

/-- Another member of the family of a real process is shadowed. -/
theorem Families.shadowed (h : Families I) (hp : I.live p) (hq : I.live q) (hne : q ≠ p)
    (hsp : I.shadow p = 0) (hh : I.home q = I.home p) : I.shadow q ≠ 0 :=
  fun hsq => hne (h.real_unique hq hp hsq hsp hh)

/-- Who lives is not who does not. -/
theorem Images.ne_of_live (hp : I.live p = true) (hc : I.live c = false) : p ≠ c := by
  rintro rfl
  rw [hp] at hc
  exact absurd hc (by decide)

/-- The image of a process is where its shadow is, or its home. -/
theorem Images.base_congr (hs : J.shadow y = I.shadow x) (hh : J.home y = I.home x) :
    J.base y = I.base x := by
  unfold Images.base
  simp only [hs, hh]

/-- The block of a process is given by its image and its text. -/
theorem Images.block_congr (hs : J.shadow y = I.shadow x) (hh : J.home y = I.home x)
    (ht : J.text y = I.text x) (hc : J.clicks y = I.clicks x) : J.block y = I.block x := by
  unfold Images.block
  simp only [hs, hh, ht, hc]

/-- The block of a shadow. -/
theorem Images.block_shadow (hs : I.shadow x ≠ 0) : I.block x = (I.shadow x, I.clicks x) :=
  if_pos hs

/-- The block of a real process. -/
theorem Images.block_real (hs : I.shadow x = 0) :
    I.block x = (I.home x - I.text x, I.clicks x + I.text x) :=
  if_neg (not_not.mpr hs)

/-- An image does not change when its place and its clicks do not. -/
theorem Images.image_congr (hb : J.base x = I.base x)
    (hc : J.core (I.base x + i) = I.core (I.base x + i)) : J.image x i = I.image x i := by
  unfold Images.image
  rw [hb, hc]

/-- Copying to a block leaves the images of the owners of other blocks. -/
theorem Families.copy_other (h : Families I) (hx : I.live x) (hi : i < I.clicks x) {a : ℕ}
    {blk : Span} (hap : (I.block x).Apart blk)
    (hblk : ∀ c, b ≤ c → c < b + n → blk.has c = true) :
    copyclicks I.core a b n (I.base x + i) = I.core (I.base x + i) := by
  unfold copyclicks
  refine if_neg fun hc => ?_
  exact hap _ ⟨h.mem_block hx hi, hblk _ hc.1 hc.2⟩

/-- The contents of memory do not matter to the families. -/
theorem Families.setCore (h : Families I) (core : ℕ → γ) : Families { I with core := core } :=
  ⟨h.low, h.alike, h.apart, h.real⟩

/-- The image of a process that writes. -/
theorem Families.write_image (h : Families I) {v : γ} (hp : I.live p = true)
    (hi : i < I.clicks p) (hx : I.live x = true) {j : ℕ} (hj : j < I.clicks x) :
    Images.image { I with core := Function.update I.core (I.base p + i) v } x j =
      if x = p ∧ j = i then v else I.image x j := by
  show Function.update I.core (I.base p + i) v (I.base x + j) = _
  by_cases hxp : x = p
  · subst hxp
    by_cases hji : j = i
    · subst hji
      rw [Function.update_self, if_pos ⟨rfl, rfl⟩]
    · rw [Function.update_of_ne (by omega), if_neg fun hc => hji hc.2]
      rfl
  · rw [if_neg fun hc => hxp hc.1]
    refine Function.update_of_ne (fun e => ?_) _ _
    have hmem := h.mem_block hx hj
    rw [e] at hmem
    exact h.apart x p hx hp hxp _ ⟨hmem, h.mem_block hp hi⟩

/-! ## Sums over the table -/

/-! ## Fork -/

section Fork

variable (hp : I.live p) (hc : I.live c = false) (hb : b ≠ 0)
include hp hc hb

/-- Whose block is whose after a fork: the child has that of its parent. -/
theorem Images.fork_block (x : Slot) : (I.fork p c b).block x =
    if x = p then (b, I.clicks p) else if x = c then I.block p else I.block x := by
  have hpc := Images.ne_of_live hp hc
  by_cases hx : x = p
  · subst hx
    have hs : (I.fork x c b).shadow x = b := by simp [Images.fork]
    rw [if_pos rfl, Images.block_shadow (by rw [hs]; exact hb), hs]
    simp [Images.fork, hpc]
  · rw [if_neg hx]
    by_cases hxc : x = c
    · subst hxc
      rw [if_pos rfl]
      refine Images.block_congr ?_ ?_ ?_ ?_
      all_goals simp [Images.fork, hx]
    · rw [if_neg hxc]
      refine Images.block_congr ?_ ?_ ?_ ?_
      all_goals simp [Images.fork, hx, hxc]

omit hb in
/-- Who lives after a fork is the child, or lived before, with a family of the same kind. -/
theorem Images.fork_live (hx : (I.fork p c b).live x = true) : ∃ y, I.live y ∧
    (I.fork p c b).home x = I.home y ∧ (I.fork p c b).text x = I.text y ∧
    (I.fork p c b).clicks x = I.clicks y ∧ ((x = c ∧ y = p) ∨ (x ≠ c ∧ y = x)) := by
  unfold Images.fork at hx ⊢
  dsimp only at hx ⊢
  by_cases hxc : x = c
  · subst hxc
    refine ⟨p, hp, ?_, ?_, ?_, Or.inl ⟨rfl, rfl⟩⟩
    all_goals rw [Function.update_self]
  · simp only [Function.update_of_ne hxc] at hx ⊢
    exact ⟨x, hx, rfl, rfl, rfl, Or.inr ⟨hxc, rfl⟩⟩

/-- A fork into a block that nobody owns keeps the families in order. -/
theorem Families.fork (h : Families I) (hf : ∀ q, I.live q → (I.block q).Apart (b, I.clicks p)) :
    Families (I.fork p c b) := by
  have hpc := Images.ne_of_live hp hc
  refine ⟨fun x hx => ?_, fun x y hx hy hh => ?_, fun x y hx hy hne => ?_, fun x hx => ?_⟩
  · obtain ⟨x', hx', hhx, htx, hcx, -⟩ := Images.fork_live hp hc hx
    rw [hhx, htx, hcx]
    exact h.low x' hx'
  · obtain ⟨x', hx', hhx, htx, hcx, -⟩ := Images.fork_live hp hc hx
    obtain ⟨y', hy', hhy, hty, hcy, -⟩ := Images.fork_live hp hc hy
    rw [hhx, hhy] at hh
    rw [htx, hty, hcx, hcy]
    exact h.alike x' y' hx' hy' hh
  · obtain ⟨x', hx', -, -, -, hxx⟩ := Images.fork_live hp hc hx
    obtain ⟨y', hy', -, -, -, hyy⟩ := Images.fork_live hp hc hy
    -- A process other than the parent has the block that `x'` had.
    have hold : ∀ {z z' : Slot}, z ≠ p → (z = c ∧ z' = p) ∨ (z ≠ c ∧ z' = z) →
        (I.fork p c b).block z = I.block z' := by
      intro z z' hz hzz
      rw [Images.fork_block hp hc hb, if_neg hz]
      rcases hzz with ⟨rfl, rfl⟩ | ⟨hzc, rfl⟩
      · rw [if_pos rfl]
      · rw [if_neg hzc]
    have hnew : (I.fork p c b).block p = (b, I.clicks p) := by
      rw [Images.fork_block hp hc hb, if_pos rfl]
    by_cases hxp : x = p
    · subst hxp
      rw [hnew, hold (Ne.symm hne) hyy]
      exact (hf y' hy').symm
    · rw [hold hxp hxx]
      by_cases hyp : y = p
      · subst hyp
        rw [hnew]
        exact hf x' hx'
      · rw [hold hyp hyy]
        refine h.apart x' y' hx' hy' ?_
        rintro rfl
        rcases hxx with ⟨rfl, rfl⟩ | ⟨hxc, rfl⟩
        · rcases hyy with ⟨rfl, -⟩ | ⟨-, rfl⟩
          · exact hne rfl
          · exact hyp rfl
        · rcases hyy with ⟨rfl, rfl⟩ | ⟨-, rfl⟩
          · exact hxp rfl
          · exact hne rfl
  · obtain ⟨x', hx', hhx, -⟩ := Images.fork_live hp hc hx
    obtain ⟨r, hr, hsr, hhr⟩ := h.real x' hx'
    rw [hhx]
    -- Whoever was real is real, the parent excepted, whose place the child has.
    have hlive : ∀ z, I.live z → (I.fork p c b).live z = true := by
      intro z hz
      unfold Images.fork
      dsimp only
      by_cases hzc : z = c
      · rw [hzc, Function.update_self]
      · rw [Function.update_of_ne hzc]
        exact hz
    by_cases hrp : r = p
    · subst hrp
      refine ⟨c, ?_, ?_, ?_⟩
      · simp [Images.fork]
      · simp only [Images.fork]
        rw [Function.update_of_ne (Ne.symm hpc), Function.update_self, hsr]
      · simp only [Images.fork, Function.update_self]
        exact hhr
    · have hrc := Images.ne_of_live hr hc
      refine ⟨r, hlive r hr, ?_, ?_⟩
      · simp only [Images.fork]
        rw [Function.update_of_ne hrp, Function.update_of_ne hrc, hsr]
      · simp only [Images.fork]
        rw [Function.update_of_ne hrc, hhr]

/-- A fork copies the image of the parent to the child, and moves no image. -/
theorem Families.fork_image (h : Families I)
    (hf : ∀ q, I.live q → (I.block q).Apart (b, I.clicks p))
    (hx : (I.fork p c b).live x = true) (hi : i < (I.fork p c b).clicks x) :
    (I.fork p c b).image x i = if x = c then I.image p i else I.image x i := by
  have hpc := Images.ne_of_live hp hc
  have hnew : ∀ d, b ≤ d → d < b + I.clicks p → Span.has (b, I.clicks p) d = true :=
    fun d h₁ h₂ => Span.has_iff.mpr ⟨h₁, h₂⟩
  have hcore : ∀ y, I.live y → i < I.clicks y →
      (I.fork p c b).core (I.base y + i) = I.core (I.base y + i) :=
    fun y hy hiy => h.copy_other hy hiy (hf y hy) hnew
  by_cases hxc : x = c
  · subst hxc
    rw [if_pos rfl]
    have hip : i < I.clicks p := by simpa [Images.fork] using hi
    have hbase : (I.fork p x b).base x = I.base p := by
      unfold Images.base Images.fork
      simp only [Function.update_self, Function.update_of_ne (Ne.symm hpc)]
    unfold Images.image
    rw [hbase]
    exact hcore p hp hip
  · rw [if_neg hxc]
    have hlive : I.live x = true := by simpa [Images.fork, hxc] using hx
    have hix : i < I.clicks x := by simpa [Images.fork, hxc] using hi
    by_cases hxp : x = p
    · -- The parent's image is in the new block.
      subst hxp
      have hbase : (I.fork x c b).base x = b := by
        unfold Images.base Images.fork
        simp only [Function.update_self, if_pos hb]
      unfold Images.image
      rw [hbase]
      unfold Images.fork copyclicks
      dsimp only
      rw [if_pos ⟨Nat.le_add_right _ _, by omega⟩, Nat.add_sub_cancel_left]
    · have hbase : (I.fork p c b).base x = I.base x := by
        unfold Images.base Images.fork
        simp only [Function.update_of_ne hxp, Function.update_of_ne hxc]
      exact Images.image_congr hbase (hcore x hlive hix)

/-- After a fork one more block is owned. -/
theorem Images.fork_owned :
    (I.fork p c b).owned = I.owned + {((b, I.clicks p) : Span)} := by
  have hpc := Images.ne_of_live hp hc
  have hblock := fun x => Images.fork_block (I := I) hp hc hb x
  unfold Images.owned
  rw [← add_zero (∑ x, _)]
  refine sum_change_two (Ne.symm hpc) (fun x hxp hxc => ?_) ?_
  · rw [hblock, if_neg hxp, if_neg hxc]
    simp only [Images.fork, Function.update_of_ne hxc]
  · rw [hblock, hblock, if_pos rfl, if_neg (Ne.symm hpc), if_pos rfl]
    simp only [Images.fork, Function.update_self, Function.update_of_ne hpc, hp, hc, if_true,
      Bool.false_eq_true, if_false, add_zero]
    exact add_comm _ _

end Fork

/-! ## Exit -/

/-- The process that takes the place of `p`, which a shadow leaves to nobody. -/
def Images.successor (I : Images γ) (p : Slot) (heir : Option Slot) : Option Slot :=
  if I.shadow p ≠ 0 then none else heir

/-- Who lives after an exit. -/
theorem Images.leave_live : (I.leave p heir).live = Function.update I.live p false := by
  unfold Images.leave
  split_ifs
  · rfl
  · split
    · rfl
    · rfl

/-- An exit leaves all maps as they are. -/
theorem Images.leave_maps : (I.leave p heir).home = I.home ∧ (I.leave p heir).text = I.text ∧
    (I.leave p heir).clicks = I.clicks := by
  unfold Images.leave
  split_ifs
  · exact ⟨rfl, rfl, rfl⟩
  · split
    · exact ⟨rfl, rfl, rfl⟩
    · exact ⟨rfl, rfl, rfl⟩

/-- Only the successor gets another place. -/
theorem Images.leave_shadow (hx : x ≠ p) :
    (I.leave p heir).shadow x = if I.successor p heir = some x then 0 else I.shadow x := by
  unfold Images.leave Images.successor
  by_cases hs : I.shadow p ≠ 0
  · rw [if_pos hs, if_pos hs, if_neg (by simp)]
    exact Function.update_of_ne hx _ _
  · rw [if_neg hs, if_neg hs]
    cases heir with
    | none => simp
    | some q =>
      by_cases hq : q = x
      · subst hq
        simp
      · rw [if_neg (by simpa using hq)]
        exact Function.update_of_ne (Ne.symm hq) _ _

/-- The image of the successor is copied, if there is one. -/
theorem Images.leave_core : (I.leave p heir).core = match I.successor p heir with
    | some q => copyclicks I.core (I.shadow q) (I.home p) (I.clicks p)
    | none => I.core := by
  unfold Images.leave Images.successor
  by_cases hs : I.shadow p ≠ 0
  · rw [if_pos hs, if_pos hs]
  · rw [if_neg hs, if_neg hs]
    cases heir with
    | none => rfl
    | some q => rfl

section Leave

variable (h : Families I) (hp : I.live p) (hheir : I.Heir p heir)
include h hp hheir

/-- The successor of a real process is a shadow of its family. -/
theorem Families.successor (hq : I.successor p heir = some q) : I.live q ∧ q ≠ p ∧
    I.shadow p = 0 ∧ I.shadow q ≠ 0 ∧ I.home q = I.home p ∧ I.text q = I.text p ∧
    I.clicks q = I.clicks p := by
  unfold Images.successor at hq
  split_ifs at hq with hs
  subst hq
  obtain ⟨hlq, hne, hh⟩ := hheir
  have hsp : I.shadow p = 0 := not_not.mp hs
  obtain ⟨ht, hc⟩ := h.alike q p hlq hp hh
  exact ⟨hlq, hne, hsp, h.shadowed hp hlq hne hsp hh, hh, ht, hc⟩

/-- Whose block is whose after an exit: the successor has that of the process that left. -/
theorem Families.leave_block (hx : x ≠ p) : (I.leave p heir).block x =
    if I.successor p heir = some x then I.block p else I.block x := by
  obtain ⟨hh, ht, hc⟩ := @Images.leave_maps γ I p heir
  have hs := @Images.leave_shadow γ I p x heir hx
  by_cases hq : I.successor p heir = some x
  · rw [if_pos hq] at hs
    obtain ⟨-, -, hsp, -, hhq, htq, hcq⟩ := h.successor hp hheir hq
    rw [if_pos hq]
    refine Images.block_congr ?_ ?_ ?_ ?_
    · rw [hs, hsp]
    · rw [hh, hhq]
    · rw [ht, htq]
    · rw [hc, hcq]
  · rw [if_neg hq] at hs
    rw [if_neg hq]
    exact Images.block_congr hs (by rw [hh]) (by rw [ht]) (by rw [hc])

/-- The block that is freed is that of the successor, or that of the process itself. -/
theorem Families.freed_eq : I.freed p heir = match I.successor p heir with
    | some q => I.block q
    | none => I.block p := by
  unfold Images.freed
  by_cases hs : I.shadow p ≠ 0
  · have hq : I.successor p heir = none := if_pos hs
    rw [if_pos hs, hq, Images.block_shadow hs]
  · have hq : I.successor p heir = heir := if_neg hs
    rw [if_neg hs, hq]
    cases heir with
    | none => exact (Images.block_real (not_not.mp hs)).symm
    | some q =>
      obtain ⟨-, -, -, hsq, -, -, hc⟩ := h.successor hp hheir hq
      show (I.shadow q, I.clicks p) = I.block q
      rw [Images.block_shadow hsq, hc]

/-- An exit keeps the families in order. -/
theorem Families.leave : Families (I.leave p heir) := by
  obtain ⟨hh, ht, hc⟩ := @Images.leave_maps γ I p heir
  have hlive : ∀ {x}, (I.leave p heir).live x = true → x ≠ p ∧ I.live x = true := by
    intro x hx
    rw [Images.leave_live] at hx
    have hne : x ≠ p := by
      rintro rfl
      rw [Function.update_self] at hx
      exact absurd hx (by decide)
    rw [Function.update_of_ne hne] at hx
    exact ⟨hne, hx⟩
  have hlive' : ∀ {x}, x ≠ p → I.live x = true → (I.leave p heir).live x = true := by
    intro x hne hx
    rw [Images.leave_live, Function.update_of_ne hne]
    exact hx
  refine ⟨fun x hx => ?_, fun x y hx hy hxy => ?_, fun x y hx hy hne => ?_, fun x hx => ?_⟩
  · rw [hh, ht, hc]
    exact h.low x (hlive hx).2
  · rw [hh] at hxy
    rw [ht, hc]
    exact h.alike x y (hlive hx).2 (hlive hy).2 hxy
  · obtain ⟨hxp, hx⟩ := hlive hx
    obtain ⟨hyp, hy⟩ := hlive hy
    rw [h.leave_block hp hheir hxp, h.leave_block hp hheir hyp]
    -- The successor stands where the process that left did.
    by_cases hqx : I.successor p heir = some x
    · have hqy : I.successor p heir ≠ some y := by
        rw [hqx]
        simpa using hne
      rw [if_pos hqx, if_neg hqy]
      exact h.apart p y hp hy (Ne.symm hyp)
    · rw [if_neg hqx]
      by_cases hqy : I.successor p heir = some y
      · rw [if_pos hqy]
        exact h.apart x p hx hp hxp
      · rw [if_neg hqy]
        exact h.apart x y hx hy hne
  · obtain ⟨hxp, hlx⟩ := hlive hx
    rw [hh]
    obtain ⟨r, hr, hsr, hhr⟩ := h.real x hlx
    by_cases hrp : r = p
    · -- The real one has left: its successor is real.
      subst hrp
      have hsucc : I.successor r heir = heir := if_neg (by simp [hsr])
      cases heir with
      | none => exact absurd hhr.symm (hheir x hlx hxp)
      | some q =>
        obtain ⟨hq, hqr, -, -, hhq, -, -⟩ := h.successor hp hheir hsucc
        refine ⟨q, hlive' hqr hq, ?_, hhq.trans hhr⟩
        rw [Images.leave_shadow hqr, if_pos hsucc]
    · refine ⟨r, hlive' hrp hr, ?_, hhr⟩
      rw [Images.leave_shadow hrp, hsr]
      exact ite_self 0

/-- An exit moves no image of the others. -/
theorem Families.leave_image (hxp : x ≠ p) (hx : I.live x = true) (hi : i < I.clicks x) :
    (I.leave p heir).image x i = I.image x i := by
  obtain ⟨hh, -, -⟩ := @Images.leave_maps γ I p heir
  have hs := @Images.leave_shadow γ I p x heir hxp
  have hcore := @Images.leave_core γ I p heir
  by_cases hqx : I.successor p heir = some x
  · -- The image of the successor is in the place of that of the process that left.
    obtain ⟨-, -, -, hsx, hhx, -, hcx⟩ := h.successor hp hheir hqx
    rw [if_pos hqx] at hs
    rw [hqx] at hcore
    have hb : (I.leave p heir).base x = I.home p := by
      unfold Images.base
      rw [if_neg (by simp [hs]), hh, hhx]
    have hb' : I.base x = I.shadow x := if_pos hsx
    unfold Images.image
    rw [hb, hb', hcore]
    unfold copyclicks
    dsimp only
    rw [if_pos ⟨Nat.le_add_right _ _, by omega⟩, Nat.add_sub_cancel_left]
  · rw [if_neg hqx] at hs
    refine Images.image_congr (Images.base_congr hs (by rw [hh])) ?_
    rw [hcore]
    cases hq : I.successor p heir with
    | none => rfl
    | some q =>
      obtain ⟨-, -, hsp, -⟩ := h.successor hp hheir hq
      refine h.copy_other hx hi (h.apart x p hx hp hxp) fun d h₁ h₂ => ?_
      rw [Images.block_real hsp, Span.has_iff]
      have := (h.low p hp).1
      constructor <;> dsimp only <;> omega

/-- After an exit, one block less is owned. -/
theorem Families.leave_owned : (I.leave p heir).owned + {I.freed p heir} = I.owned := by
  have hlive := @Images.leave_live γ I p heir
  have hlp : (I.leave p heir).live p = false := by rw [hlive, Function.update_self]
  have hlx : ∀ x, x ≠ p → (I.leave p heir).live x = I.live x := fun x hx => by
    rw [hlive, Function.update_of_ne hx]
  rw [h.freed_eq hp hheir]
  unfold Images.owned
  rw [← add_zero (∑ x, if I.live x = true then _ else _)]
  cases hq : I.successor p heir with
  | none =>
    refine sum_change_one (p := p) (fun x hx => ?_) ?_
    · have hne : (none : Option Slot) ≠ some x := by simp
      rw [hlx x hx, h.leave_block hp hheir hx, hq, if_neg hne]
    · rw [hlp, if_neg (by decide), if_pos hp, zero_add, add_zero]
  | some q =>
    obtain ⟨hlq, hqp, -⟩ := h.successor hp hheir hq
    refine sum_change_two hqp (fun x hxp hxq => ?_) ?_
    · have hne : some q ≠ some x := by simpa using Ne.symm hxq
      rw [hlx x hxp, h.leave_block hp hheir hxp, hq, if_neg hne]
    · rw [hlp, hlx q hqp, h.leave_block hp hheir hqp, if_pos hq, if_neg (by decide), if_pos hlq,
        if_pos hp, if_pos hlq, zero_add, add_zero]

/-- Nobody owns the block that is freed. -/
theorem Families.freed_apart (hxp : x ≠ p) (hx : I.live x = true) :
    (I.freed p heir).Apart ((I.leave p heir).block x) := by
  rw [h.freed_eq hp hheir, h.leave_block hp hheir hxp]
  cases hq : I.successor p heir with
  | none =>
    rw [if_neg (by simp)]
    exact h.apart p x hp hx (Ne.symm hxp)
  | some q =>
    obtain ⟨hlq, hqp, -⟩ := h.successor hp hheir hq
    by_cases hqx : q = x
    · rw [if_pos (by rw [hqx])]
      exact h.apart q p hlq hp hqp
    · rw [if_neg (by simpa using hqx)]
      exact h.apart q x hlq hx hqx

end Leave

/-! ## A fresh image -/

section Enter

variable {home text clicks : ℕ} (hp : I.live p = false) (hs : I.shadow p = 0)
include hp hs

/-- The block of a process with a fresh image is the fresh one. -/
theorem Images.enter_block (x : Slot) : (I.enter p home text clicks).block x =
    if x = p then (home - text, clicks + text) else I.block x := by
  by_cases hx : x = p
  · subst hx
    rw [if_pos rfl, Images.block_real (by exact hs)]
    simp [Images.enter]
  · rw [if_neg hx]
    refine Images.block_congr rfl ?_ ?_ ?_
    all_goals simp [Images.enter, hx]

/-- A fresh image in a block that nobody owns keeps the families in order. -/
theorem Families.enter (h : Families I) (hlow : text ≤ home) (hpos : 0 < clicks)
    (hf : ∀ q, I.live q → (I.block q).Apart (home - text, clicks + text)) :
    Families (I.enter p home text clicks) := by
  have hlive : ∀ {x}, x ≠ p → (I.enter p home text clicks).live x = true → I.live x = true := by
    intro x hne hx
    simpa [Images.enter, hne] using hx
  -- Nobody else is at the fresh home: the real one of a family there would own clicks of it.
  have hhome : ∀ x, I.live x → I.home x ≠ home := by
    intro x hx hxh
    obtain ⟨r, hr, hsr, hhr⟩ := h.real x hx
    have hmem := h.mem_block hr (h.low r hr).2
    have hb : I.base r = home := by
      unfold Images.base
      rw [if_neg (by simp [hsr]), hhr, hxh]
    rw [hb] at hmem
    refine hf r hr _ ⟨hmem, Span.has_iff.mpr ?_⟩
    constructor <;> dsimp only <;> omega
  refine ⟨fun x hx => ?_, fun x y hx hy hxy => ?_, fun x y hx hy hne => ?_, fun x hx => ?_⟩
  · by_cases hxp : x = p
    · subst hxp
      simpa [Images.enter] using ⟨hlow, hpos⟩
    · simpa [Images.enter, hxp] using h.low x (hlive hxp hx)
  · by_cases hxp : x = p
    · by_cases hyp : y = p
      · rw [hxp, hyp]
        exact ⟨rfl, rfl⟩
      · refine absurd ?_ (hhome y (hlive hyp hy))
        simpa [Images.enter, hxp, hyp] using hxy.symm
    · by_cases hyp : y = p
      · refine absurd ?_ (hhome x (hlive hxp hx))
        simpa [Images.enter, hxp, hyp] using hxy
      · have hxy' : I.home x = I.home y := by simpa [Images.enter, hxp, hyp] using hxy
        simpa [Images.enter, hxp, hyp] using h.alike x y (hlive hxp hx) (hlive hyp hy) hxy'
  · rw [Images.enter_block hp hs, Images.enter_block hp hs]
    by_cases hxp : x = p
    · have hyp : y ≠ p := fun e => hne (hxp.trans e.symm)
      rw [if_pos hxp, if_neg hyp]
      exact (hf y (hlive hyp hy)).symm
    · rw [if_neg hxp]
      by_cases hyp : y = p
      · rw [if_pos hyp]
        exact hf x (hlive hxp hx)
      · rw [if_neg hyp]
        exact h.apart x y (hlive hxp hx) (hlive hyp hy) hne
  · by_cases hxp : x = p
    · subst hxp
      exact ⟨x, hx, hs, rfl⟩
    · obtain ⟨r, hr, hsr, hhr⟩ := h.real x (hlive hxp hx)
      have hrp := Images.ne_of_live hr hp
      refine ⟨r, ?_, hsr, ?_⟩
      · simpa [Images.enter, hrp] using hr
      · simpa [Images.enter, hrp, hxp] using hhr

/-- A fresh image is one more block. -/
theorem Images.enter_owned : (I.enter p home text clicks).owned =
    I.owned + {((home - text, clicks + text) : Span)} := by
  have hblock := @Images.enter_block γ I p home text clicks hp hs
  unfold Images.owned
  rw [← add_zero (∑ x, _)]
  refine sum_change_one (p := p) (fun x hx => ?_) ?_
  · rw [hblock, if_neg hx]
    simp only [Images.enter, Function.update_of_ne hx]
  · rw [hblock, if_pos rfl]
    simp [Images.enter, hp]

/-- A fresh image keeps the families in order, and the images of the others. -/
theorem Families.fresh [Zero γ] {offset : ℕ} (h : Families I) (hlow : text ≤ home)
    (hpos : 0 < clicks)
    (hf : ∀ q, I.live q → (I.block q).Apart (home - text, clicks + text)) :
    Families (I.fresh p home text clicks offset) ∧
    (I.fresh p home text clicks offset).owned =
      I.owned + {((home - text, clicks + text) : Span)} ∧
    ∀ x i, (I.fresh p home text clicks offset).live x = true →
      i < (I.fresh p home text clicks offset).clicks x →
      if x = p then offset ≤ i → (I.fresh p home text clicks offset).image x i = 0
      else (I.fresh p home text clicks offset).image x i = I.image x i := by
  refine ⟨(h.enter hp hs hlow hpos hf).setCore _, Images.enter_owned hp hs, fun x i hx hi => ?_⟩
  by_cases hxp : x = p
  · subst hxp
    rw [if_pos rfl]
    intro hoff
    have hclicks : i < clicks := by simpa [Images.fresh, Images.enter] using hi
    have hbase : (I.fresh x home text clicks offset).base x = home := by
      have hs' : ¬(I.fresh x home text clicks offset).shadow x ≠ 0 := not_not.mpr hs
      unfold Images.base
      rw [if_neg hs']
      simp [Images.fresh, Images.enter]
    unfold Images.image
    rw [hbase]
    unfold Images.fresh zeroclicks
    dsimp only
    rw [if_pos ⟨by omega, by omega⟩]
  · rw [if_neg hxp]
    have hlive : I.live x = true := by simpa [Images.fresh, Images.enter, hxp] using hx
    have hclicks : i < I.clicks x := by simpa [Images.fresh, Images.enter, hxp] using hi
    refine Images.image_congr (Images.base_congr rfl ?_) ?_
    · simp [Images.fresh, Images.enter, hxp]
    · unfold Images.fresh zeroclicks
      dsimp only
      refine if_neg fun hc => hf x hlive _ ⟨h.mem_block hlive hclicks, Span.has_iff.mpr ?_⟩
      constructor <;> dsimp only <;> omega

end Enter

/-! ## Flips -/

section Flip

variable (h : Families I) (hp : I.live p) (hq : I.live q) (hsp : I.shadow p ≠ 0)
  (hsq : I.shadow q = 0) (hh : I.home q = I.home p)
include h hp hq hsp hsq hh

/-- After a flip, the two have each other's blocks. -/
theorem Families.flip_block (x : Slot) : (I.flip p q).block x =
    if x = p then I.block q else if x = q then I.block p else I.block x := by
  have hne : q ≠ p := fun e => hsp (e ▸ hsq)
  obtain ⟨ht, hc⟩ := h.alike q p hq hp hh
  by_cases hxp : x = p
  · subst hxp
    rw [if_pos rfl]
    refine Images.block_congr ?_ ?_ ?_ ?_
    all_goals simp [Images.flip, hsq, hh, ht, hc]
  · rw [if_neg hxp]
    by_cases hxq : x = q
    · subst hxq
      rw [if_pos rfl]
      refine Images.block_congr ?_ ?_ ?_ ?_
      all_goals simp [Images.flip, hne, hh, ht, hc]
    · rw [if_neg hxq]
      refine Images.block_congr ?_ ?_ ?_ ?_
      all_goals simp [Images.flip, hxp, hxq]

/-- A flip keeps the families in order. -/
theorem Families.flip : Families (I.flip p q) := by
  have hne : q ≠ p := fun e => hsp (e ▸ hsq)
  refine ⟨h.low, h.alike, fun x y hx hy hxy => ?_, fun x hx => ?_⟩
  · -- Whose block a process has after the flip.
    let old : Slot → Slot := fun z => if z = p then q else if z = q then p else z
    have hold : ∀ z, (I.flip p q).block z = I.block (old z) := by
      intro z
      rw [h.flip_block hp hq hsp hsq hh]
      simp only [old]
      split_ifs
      · rfl
      · rfl
      · rfl
    have hlive : ∀ z, I.live z → I.live (old z) := by
      intro z hz
      simp only [old]
      split_ifs
      · exact hq
      · exact hp
      · exact hz
    rw [hold, hold]
    refine h.apart _ _ (hlive x hx) (hlive y hy) ?_
    simp only [old]
    grind
  · obtain ⟨r, hr, hsr, hhr⟩ := h.real x hx
    by_cases hrq : r = q
    · subst hrq
      refine ⟨p, hp, ?_, hh.symm.trans hhr⟩
      simp [Images.flip]
    · refine ⟨r, hr, ?_, hhr⟩
      have hrp : r ≠ p := fun e => hsp (e ▸ hsr)
      simpa [Images.flip, hrp, hrq] using hsr

/-- A flip moves no image. -/
theorem Families.flip_image (hx : I.live x = true) (hi : i < I.clicks x) :
    (I.flip p q).image x i = I.image x i := by
  have hne : q ≠ p := fun e => hsp (e ▸ hsq)
  obtain ⟨ht, hc⟩ := h.alike q p hq hp hh
  have hbp : I.base p = I.shadow p := if_pos hsp
  have hbq : I.base q = I.home q := if_neg (not_not.mpr hsq)
  have hmem := h.mem_block hx hi
  -- What the two blocks have, in terms of their owners.
  have hp' : ∀ d, I.shadow p ≤ d → d < I.shadow p + I.clicks q → (I.block p).has d = true := by
    intro d h₁ h₂
    rw [Images.block_shadow hsp, Span.has_iff]
    constructor <;> dsimp only <;> omega
  have hq' : ∀ d, I.home q ≤ d → d < I.home q + I.clicks q → (I.block q).has d = true := by
    intro d h₁ h₂
    have := (h.low q hq).1
    rw [Images.block_real hsq, Span.has_iff]
    constructor <;> dsimp only <;> omega
  by_cases hxp : x = p
  · subst hxp
    have hb : (I.flip x q).base x = I.home q := by
      unfold Images.base
      simp [Images.flip, hh]
    unfold Images.image
    rw [hb, hbp]
    simp only [Images.flip, flipclicks]
    have hout : ¬(I.shadow x ≤ I.home q + i ∧ I.home q + i < I.shadow x + I.clicks q) := by
      intro hc'
      refine h.apart x q hx hq (Ne.symm hne) _ ⟨hp' _ hc'.1 hc'.2, hq' _ ?_ ?_⟩
      · omega
      · omega
    rw [if_neg hout, if_pos ⟨by omega, by omega⟩, Nat.add_sub_cancel_left]
  · by_cases hxq : x = q
    · subst hxq
      have hb : (I.flip p x).base x = I.shadow p := by
        unfold Images.base
        simp [Images.flip, hxp, hsp]
      unfold Images.image
      rw [hb, hbq]
      simp only [Images.flip, flipclicks]
      rw [if_pos ⟨by omega, by omega⟩, Nat.add_sub_cancel_left]
    · refine Images.image_congr (Images.base_congr ?_ rfl) ?_
      · simp [Images.flip, hxp, hxq]
      · simp only [Images.flip, flipclicks]
        rw [if_neg, if_neg]
        · exact fun hc' => h.apart x q hx hq hxq _ ⟨hmem, hq' _ hc'.1 hc'.2⟩
        · exact fun hc' => h.apart x p hx hp hxp _ ⟨hmem, hp' _ hc'.1 hc'.2⟩

/-- A flip leaves the blocks that are owned. -/
theorem Families.flip_owned : (I.flip p q).owned = I.owned := by
  have hne : q ≠ p := fun e => hsp (e ▸ hsq)
  have hblock := h.flip_block hp hq hsp hsq hh
  have hlive : (I.flip p q).live = I.live := rfl
  unfold Images.owned
  rw [hlive, ← add_zero (∑ x, _), ← add_zero (∑ x, if I.live x = true then {I.block x} else 0)]
  refine sum_change_two hne (fun x hxp hxq => ?_) ?_
  · rw [hblock, if_neg hxp, if_neg hxq]
  · rw [hblock, hblock, if_pos rfl, if_neg hne, if_pos rfl, if_pos hp, if_pos hq, if_pos hp,
      if_pos hq, add_comm ({I.block q} : Multiset Span)]

end Flip

end Minix.Kernel
