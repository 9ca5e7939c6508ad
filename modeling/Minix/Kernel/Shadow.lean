import Minix.Kernel.Signals
import Minix.Lib.Spans

/-!
# Shadowed process images

The functions of `kernel/stshadow.c`, and the calls of `kernel/system.c` and `mm/break.c` that use
them. The 68000 has no relocation hardware: after a fork, parent and child have the same addresses,
and all but one of such a family have the data and stack segments in a block elsewhere, at
`p_shadow`. `Machine` adds to the kernel's state the two segments that message passing does not look
at, `p_physio`, `flipwait`, and the contents of memory, click by click.

`none` is a panic, or what the kernel does not survive. The clicks are those of an ST: numbers below
`2^16`, so that the sums of `rmshadow` do not wrap.
-/

namespace Minix.Kernel

open Lib

def E_BAD_PROC : ℤ := -11

/-- Units of 100 ms between flips. -/
def FLIPWAIT : ℕ := 5

/-- `P_STOP`. -/
def P_STOP : PFlags := { PFlags.zero with stop := true }

/-- The flags that a child does not inherit. -/
def NOT_INHERITED : PFlags := (PENDING.or SIG_PENDING).or P_STOP

/-- `isoksusern(n)`, of the entry: the number of a server or a user. -/
def isoksusern (p : Slot) : Bool := NR_TASKS ≤ p.val

/-- The entries from `proc[NR_TASKS + LOW_USER]` on, in order. -/
def userSlots : List Slot := (List.finRange (NR_TASKS + NR_PROCS)).filter isuserp

/-- The kernel's state, the text and stack segments of the processes, and the memory. -/
structure Machine (γ : Type) where
  k : State
  /-- `p_map[T]`. -/
  text : Slot → MemMap
  /-- `p_map[S]`. -/
  stack : Slot → MemMap
  p_physio : Slot → Bool
  flipwait : ℕ
  /-- What each click of physical memory contains. -/
  core : ℕ → γ

variable {γ : Type}

/-! ## Copying clicks -/

/-- Copy `nc` clicks from `c1` to `c2`. -/
def copyclicks (core : ℕ → γ) (c1 c2 nc : ℕ) : ℕ → γ := fun c =>
  if c2 ≤ c ∧ c < c2 + nc then core (c1 + (c - c2)) else core c

/-- Exchange two blocks of `nc` clicks. -/
def flipclicks (core : ℕ → γ) (c1 c2 nc : ℕ) : ℕ → γ := fun c =>
  if c1 ≤ c ∧ c < c1 + nc then core (c2 + (c - c1))
  else if c2 ≤ c ∧ c < c2 + nc then core (c1 + (c - c2))
  else core c

/-- Zero `nc` clicks from `c1` on. -/
def zeroclicks [Zero γ] (core : ℕ → γ) (c1 nc : ℕ) : ℕ → γ := fun c =>
  if c1 ≤ c ∧ c < c1 + nc then 0 else core c

/-- The clicks of data segment, gap and stack segment, `nc` in the source. -/
def Machine.clicks (m : Machine γ) (p : Slot) : ℕ :=
  (m.stack p).mem_phys - (m.k.p_map p).mem_phys + (m.stack p).mem_len

/-- `p->p_shadow = c`. -/
def State.setShadow (s : State) (p : Slot) (c : ℕ) : State :=
  { s with p_shadow := Function.update s.p_shadow p c }

/-! ## `stshadow.c` -/

/-- The image of `p` is copied to the block at `c2`, which is its shadow from now on. -/
def mkshadow (m : Machine γ) (p : Slot) (c2 : ℕ) : Machine γ :=
  -- The father can be shadowed.
  let c1 := if m.k.p_shadow p ≠ 0 then m.k.p_shadow p else (m.k.p_map p).mem_phys
  { m with
    k := m.k.setShadow p c2
    core := copyclicks m.core c1 c2 (m.clicks p)
    flipwait := FLIPWAIT }

/-- Take a process off its queue, if it is ready. -/
def unreadyIf (s : State) (q : Slot) : Option State :=
  if s.p_flags q = PFlags.zero then unready s q else some s

/-- Queue a process, if it is ready. -/
def readyIf (s : State) (q : Slot) : Option State :=
  if s.p_flags q = PFlags.zero then ready s q else some s

/-- Another live user whose data segment is that of `p`. -/
def sharesWith (s : State) (p q : Slot) : Bool :=
  !(s.p_flags q).slotFree && q != p && (s.p_map q).mem_phys == (s.p_map p).mem_phys

/-- The process `p` gives up its image. The block that is free then is a shadow's, unless `p` has
the image to itself: if `p` is real, a shadow becomes real in its place. -/
def rmshadow (m : Machine γ) (p : Slot) : Option (Span × Machine γ) :=
  let nc := m.clicks p
  if m.k.p_shadow p ≠ 0 then some ((m.k.p_shadow p, nc), { m with k := m.k.setShadow p 0 })
  else
    match userSlots.find? (sharesWith m.k p) with
    | some q =>
      if m.k.p_shadow q = 0 || m.p_physio q then none
      else do
        let k ← unreadyIf m.k q
        let k ← readyIf (k.setShadow q 0) q
        some ((m.k.p_shadow q, nc),
          { m with
            k := k
            core := copyclicks m.core (m.k.p_shadow q) (m.k.p_map p).mem_phys nc })
    | none => some (((m.text p).mem_phys, nc + (m.text p).mem_len), m)

/-- Exchange the images of a shadowed process and the real one of its family. -/
def unshadow (m : Machine γ) (p : Slot) : Option (Machine γ) :=
  if m.flipwait ≠ 0 then some { m with flipwait := m.flipwait - 1 }
  else if m.p_physio p then some m
  else
    match userSlots.find? (fun q => sharesWith m.k p q && m.k.p_shadow q == 0) with
    | none => none
    | some q =>
      if m.p_physio q then some m
      else do
        let nc := (m.stack q).mem_phys - (m.k.p_map q).mem_phys + (m.stack q).mem_len
        let core := flipclicks m.core (m.k.p_shadow p) (m.k.p_map q).mem_phys nc
        -- Give ownership of the shadow to `q`, changing queues if appropriate.
        let k ← unready m.k p
        let k ← unreadyIf k q
        let k := k.setShadow q (k.p_shadow p)
        let k ← ready (k.setShadow p 0) p
        let k ← readyIf k q
        some { m with k := k, core := core, flipwait := FLIPWAIT }

/-- What the clock does about shadows: the first of the shadowed processes is to be real. -/
def clockUnshadow (m : Machine γ) : Option (Machine γ) :=
  match m.k.rdy_head .SHADOW_Q with
  | some p => unshadow m p
  | none => some m

/-! ## The system calls -/

/-- Copy the entry of one process to that of another. -/
def copySlot (s : State) (src dst : Slot) : State :=
  { s with
    p_flags := Function.update s.p_flags dst (s.p_flags src)
    p_map := Function.update s.p_map dst (s.p_map src)
    p_shadow := Function.update s.p_shadow dst (s.p_shadow src)
    p_int_blocked := Function.update s.p_int_blocked dst (s.p_int_blocked src)
    p_int_held := Function.update s.p_int_held dst (s.p_int_held src)
    p_nextheld := Function.update s.p_nextheld dst (s.p_nextheld src)
    p_callerq := Function.update s.p_callerq dst (s.p_callerq src)
    p_sendlink := Function.update s.p_sendlink dst (s.p_sendlink src)
    p_messbuf := Function.update s.p_messbuf dst (s.p_messbuf src)
    p_getfrom := Function.update s.p_getfrom dst (s.p_getfrom src)
    p_nextready := Function.update s.p_nextready dst (s.p_nextready src)
    p_pending := Function.update s.p_pending dst (s.p_pending src)
    p_pendcount := Function.update s.p_pendcount dst (s.p_pendcount src) }

/-- The entry of the child: a copy of the parent's, without its signals. -/
def forkSlot (s : State) (rpp rpc : Slot) : State :=
  let s := copySlot s rpp rpc
  { s with
    p_flags := Function.update s.p_flags rpc ((s.p_flags rpc).clear NOT_INHERITED)
    p_pending := Function.update s.p_pending rpc 0
    p_pendcount := Function.update s.p_pendcount rpc 0 }

/-- Handle `sys_fork()`: `rpp` has forked, and the child is `rpc`. The child is the one that has the
old image, to run first. -/
def doFork (m : Machine γ) (rpp rpc : Slot) (base : ℕ) : ℤ × Machine γ :=
  if !isoksusern rpp || !isoksusern rpc then (E_BAD_PROC, m)
  else
    let m := { m with
      k := forkSlot m.k rpp rpc
      text := Function.update m.text rpc (m.text rpp)
      stack := Function.update m.stack rpc (m.stack rpp)
      p_physio := Function.update m.p_physio rpc (m.p_physio rpp) }
    (OK, mkshadow m rpp base)

/-- Handle `sys_newmap()`: fetch the memory map from the memory manager. -/
def doNewmap (m : Machine γ) (rp : Slot) (t d s : MemMap) : ℤ × Machine γ :=
  (OK, { m with
    k := { m.k with p_map := Function.update m.k.p_map rp d }
    text := Function.update m.text rp t
    stack := Function.update m.stack rp s })

/-- Take a process off the queues of senders: the loop of `do_xit` over the table, from the entry
`x` on. It ends at a queue that the process is at the head of. -/
def dropSender (rc : Slot) : List Slot → State → Option State
  | [], s => some s
  | x :: l, s =>
    match s.p_callerq x with
    | none => dropSender rc l s
    | some np =>
      if np = rc then some { s with p_callerq := Function.update s.p_callerq x (s.p_sendlink rc) }
      else
        -- See if the process is in the middle of the queue.
        match cellBefore s.p_sendlink rc fuel np with
        | none => none
        | some none => dropSender rc l s
        | some (some np) =>
          dropSender rc l
            { s with p_sendlink := Function.update s.p_sendlink np (s.p_sendlink rc) }

/-- A process that happens to be queued trying to send a message is taken off the queue. -/
def unqueueSender (s : State) (rc : Slot) : Option State :=
  if (s.p_flags rc).sending then dropSender rc (List.finRange (NR_TASKS + NR_PROCS)) s
  else some s

/-- Handle `sys_xit()`: the process `rc` has exited. The block that is free then is reported to the
memory manager. -/
def doXit (m : Machine γ) (parent rc : Slot) : Option (ℤ × Option Span × Machine γ) :=
  if !isoksusern parent || !isoksusern rc then some (E_BAD_PROC, none, m)
  else do
    let k ← unreadyIf m.k rc
    let (block, m) ← rmshadow { m with k := k } rc
    let k ← unqueueSender m.k rc
    some (OK, some block, { m with k := xitEnd k rc })

/-- Handle `sys_fresh`: start with a fresh process image during `EXEC`. The first `offset` clicks of
it are left as they are, for the data of the new program. -/
def doFresh [Zero γ] (m : Machine γ) (p : Slot) (t d s : MemMap) (offset : ℕ) :
    Option (ℤ × Option Span × Machine γ) :=
  if !isoksusern p then some (E_BAD_PROC, none, m)
  else do
    let (block, m) ← rmshadow m p
    let m := (doNewmap m p t d s).2
    let c1 := (m.k.p_map p).mem_phys + offset
    some (OK, some block, { m with core := zeroclicks m.core c1 (m.clicks p - offset) })

/-! ## `adjust` of the memory manager -/

/-- Clicks of the safety margin between data and stack. -/
def SAFETY_CLICKS : ℕ := 6

/-- See if data and stack segments can coexist, adjusting them if need be: the new segments, or
`none` for `ENOMEM`. The sum for the gap is made in sixteen bits. -/
def adjust (d s : MemMap) (data_clicks sp_click : ℕ) : Option (MemMap × MemMap) :=
  let lower := if sp_click < s.mem_vir then sp_click else s.mem_vir
  let gap_base := (d.mem_vir + data_clicks + SAFETY_CLICKS) % 2 ^ 16
  let delta := s.mem_vir - sp_click
  let d' := { d with mem_len := data_clicks }
  let s' : MemMap := ⟨s.mem_vir - delta, s.mem_phys - delta, s.mem_len + delta⟩
  if s.mem_vir + s.mem_len ≤ sp_click then none
  else if lower < gap_base then none
  -- `size_ok`: do the new sizes fit in the address space?
  else if s'.mem_vir < (d'.mem_vir + d'.mem_len) % 2 ^ 16 then none
  else some (d', s')

/-- The entry of `INIT_PROC_NR`. -/
def initSlot : Slot := ⟨11, by decide⟩

/-- Adjust the segments of a process, and report the new map to the kernel. -/
def adjustProc (m : Machine γ) (rp : Slot) (data_clicks sp_click : ℕ) : Machine γ :=
  -- Don't bother init.
  if rp = initSlot then m
  else match adjust (m.k.p_map rp) (m.stack rp) data_clicks sp_click with
  | some (d, s) => (doNewmap m rp (m.text rp) d s).2
  | none => m

end Minix.Kernel
