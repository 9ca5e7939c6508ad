import Minix.Mm.Memory
import Minix.Mm.Exec

/-!
# The memory of processes on Intel machines

What `CHIP == INTEL` selects of `mm/forkexit.c`, `mm/exec.c`, `mm/break.c` and `mm/signal.c`, with
an `int` of 16 bits. There the memory manager gives back the memory of a process itself. It does not
note what block that is, but works it out from the segments (`released`). `log` records, newest
first, the blocks that processes have got from `alloc_mem` and those that were passed to `free_mem`
for them. The contents of memory are left out, and with them the copies that `do_fork` and `do_exec`
make.
-/

namespace Minix.Mm.Intel

open Kernel (NR_PROCS)
open Lib (Span int16)

/-- A pointer that is bad. -/
def EFAULT : ℤ := -14

/-- How many bytes in a page, and how many pages in the virtual address space. -/
def PAGE_SIZE : ℕ := 16
def MAX_PAGES : ℕ := 4096

/-- A safety margin for future stack growth: 384 pointers of two bytes. -/
def SAFETY_CLICKS : ℕ := 3

/-- Buffer size for erasing memory. -/
def ZEROBUF_SIZE : ℤ := 1024

/-- What became of a block of memory. -/
inductive BlockEvent
  /-- `alloc_mem` has given the process the block. -/
  | got (proc : ProcNr) (block : Span)
  /-- The block was passed to `free_mem` for the process. -/
  | freed (proc : ProcNr) (block : Span)
  deriving DecidableEq, Repr

/-- The tables of the memory manager. -/
structure IntelState where
  mm : MState
  table : HoleTable
  log : List BlockEvent

/-- The clicks that a process has, as `do_fork`, `mm_exit` and `new_mem` work them out. -/
def progClicks (p : MProc) : ℕ :=
  let s := u16 (p.segS.mem_len + u16 (p.segS.mem_vir - p.segD.mem_vir))
  if p.mp_flags.SEPARATE then u16 (s + p.segT.mem_len) else s

/-- The block that `mm_exit` and `new_mem` pass to `free_mem`. -/
def released (p : MProc) : Span := (p.segT.mem_phys, progClicks p)

/-! ## The break and the stack -/

/-- Clicks in pages. The clicks are shifted in 16 bits. -/
def pages (clicks : ℕ) : ℕ := u16 (u16 (clicks <<< CLICK_SHIFT) + PAGE_SIZE - 1) / PAGE_SIZE

/-- Check to see if the sizes are feasible and enough segmentation registers exist. -/
def sizeOk (separate : Bool) (tc dc sc dvir s_vir : ℕ) : Bool :=
  if separate then
    if MAX_PAGES < pages tc ∨ MAX_PAGES < pages dc + pages sc then false
    else u16 (dvir + dc) ≤ s_vir
  else if MAX_PAGES < pages tc + pages dc + pages sc then false
  else u16 (dvir + dc) ≤ s_vir

/-- See if data and stack segments can coexist, adjusting them if need be: whether they can, and the
entry afterwards. -/
def adjust (n : ProcNr) (p : MProc) (data_clicks sp : ℕ) : Bool × MProc :=
  if n = INIT_PROC_NR then (true, p)
  else
    let base_of_stack := p.segS.mem_vir + p.segS.mem_len
    let sp_click := sp >>> CLICK_SHIFT
    if base_of_stack ≤ sp_click then (false, p)
    else
      let delta := (p.segS.mem_vir : ℤ) - sp_click
      let lower := if 0 < delta then sp_click else p.segS.mem_vir
      let gap_base := u16 (p.segD.mem_vir + data_clicks + SAFETY_CLICKS)
      if lower < gap_base then (false, p)
      else
        let old_clicks := p.segD.mem_len
        let p := { p with segD := { p.segD with mem_len := data_clicks } }
        let p := if 0 < delta then moveStack p delta else p
        if sizeOk p.mp_flags.SEPARATE p.segT.mem_len p.segD.mem_len p.segS.mem_len p.segD.mem_vir
            p.segS.mem_vir then (true, p)
        else
          let p := { p with segD := { p.segD with mem_len := old_clicks } }
          (false, if 0 < delta then moveStack p (-delta) else p)

/-- Perform the brk(addr) system call: the answer, `res_ptr`, and the entry afterwards. `new_sp` is
the stack pointer that `sys_getsp` reports. -/
def doBrk (n : ProcNr) (p : MProc) (addr : ℤ) (new_sp : ℕ) : ℤ × ℤ × MProc :=
  let v := u16 addr
  let new_clicks := u16 ((v + CLICK_SIZE - 1) >>> CLICK_SHIFT)
  if new_clicks < p.segD.mem_vir then (ENOMEM, -1, p)
  else
    let (room, p) := adjust n p (u16 (new_clicks - p.segD.mem_vir)) new_sp
    if room then (OK, addr, p) else (ENOMEM, -1, p)

/-! ## Creating and deleting processes -/

/-- The entry of a child, as it is made from that of its parent, in its own memory. -/
def childOf (who : ProcNr) (p : MProc) (child_base : ℕ) : MProc :=
  let d_phys := u16 (child_base + p.segT.mem_len)
  { Mm.childOf who p with
    segT := { p.segT with mem_phys := child_base }
    segD := { p.segD with mem_phys := d_phys }
    segS := { p.segS with mem_phys := u16 (d_phys + (p.segS.mem_phys - p.segD.mem_phys)) } }

/-- The part of `do_fork` after the memory was got. -/
def makeChild (s : IntelState) (who : ProcNr) (block : Span) : Option (ℤ × IntelState) := do
  let rmc ← mprocs.find? fun rmc => !(s.mm.flags rmc).IN_USE
  let mm := { s.mm with procs_in_use := s.mm.procs_in_use + 1 }
  let mm ← findPid rmc pidFuel (mm.set rmc fun _ => childOf who (s.mm.mproc who) block.1)
  let mm := (setProcgrp mm who rmc).record (.fork rmc)
  some ((mm.next_pid : ℤ), { s with mm := reply mm rmc 0 0, log := .got rmc block :: s.log })

/-- The process has forked. Create a child process, unless tables might fill up. -/
def doFork (s : IntelState) (who : ProcNr) : Option (ℤ × IntelState) :=
  if s.mm.procs_in_use = NR_PROCS then some (EAGAIN, s)
  else if (NR_PROCS : ℤ) - LAST_FEW ≤ s.mm.procs_in_use ∧ (s.mm.mproc who).mp_effuid ≠ 0 then
    some (EAGAIN, s)
  else do
    let prog_clicks := progClicks (s.mm.mproc who)
    let (child_base, table) ← allocMem s.table prog_clicks
    if child_base = NO_MEM then some (EAGAIN, { s with table := table })
    else makeChild { s with table := table } who (child_base, prog_clicks)

/-- A process is done. Its memory is released at the end. -/
def mmExit (s : IntelState) (rmp : ProcNr) (exit_status : ℤ) : Option IntelState := do
  let mm ← Mm.mmExit s.mm rmp exit_status
  let block := released (mm.mproc rmp)
  let table ← freeMem s.table block.1 block.2
  some ⟨mm, table, .freed rmp block :: s.log⟩

/-! ## Signals -/

/-- The signal is to be caught, and further ones are not: whether there is room on the stack. -/
def catchSig (k : Outside) (mm : MState) (rmp : ProcNr) (sig_nr : ℕ) : Bool × MState :=
  let mm := mm.set rmp fun p => { p with mp_catch := clearSig p.mp_catch sig_nr }
  let (room, p) := adjust rmp (mm.mproc rmp) (mm.mproc rmp).segD.mem_len
    (u16 (k.sp rmp sig_nr - SIG_PUSH_BYTES))
  (room, mm.set rmp fun _ => p)

/-- Signal should not or cannot be caught. Take default action. -/
def killProc (k : Outside) (s : IntelState) (rmp : ProcNr) (sig_nr : ℕ) : Option IntelState :=
  let mm := s.mm.set rmp fun p => { p with mp_sigstatus := sig_nr }
  let mm := if hasSig coreBits sig_nr then dumpCore k mm rmp sig_nr else mm
  mmExit { s with mm := mm } rmp 0

/-- Send a signal to a process. -/
def sigProc (k : Outside) (s : IntelState) (rmp : ProcNr) (sig_nr : ℕ) : Option IntelState :=
  if (s.mm.flags rmp).IN_USE = false then some s
  else if (s.mm.flags rmp).TRACED ∧ sig_nr ≠ SIGKILL then
    some { s with mm := stopProc k s.mm rmp sig_nr }
  else if hasSig (s.mm.mproc rmp).mp_catch sig_nr then
    let (room, mm) := catchSig k s.mm rmp sig_nr
    if room then some { s with mm := mm } else killProc k { s with mm := mm } rmp sig_nr
  else killProc k s rmp sig_nr

/-- Handle a stack fault by growing the stack segment until sp is inside of it. -/
def stackFault (k : Outside) (s : IntelState) (proc_nr : ProcNr) : Option IntelState :=
  let (room, p) := adjust proc_nr (s.mm.mproc proc_nr) (s.mm.mproc proc_nr).segD.mem_len
    (u16 (k.sp proc_nr SIGSTKFLT))
  let mm := s.mm.set proc_nr fun _ => p
  if room then some { s with mm := mm }
  else sigProc k { s with mm := mm.set proc_nr fun p => { p with mp_catch := 0 } } proc_nr SIGSEGV

/-! ## Executing a program -/

/-- Get text and data sizes. If I & D space is not separated, it is all considered data. -/
def execSizes (buf : Fin 8 → BitVec 32) : ExecSizes :=
  let text_bytes := u16 (buf TEXTB).toInt
  let data_bytes := u16 (buf DATAB).toInt
  let bss_bytes := u16 (buf BSSB).toInt
  if buf 0 &&& SEP ≠ 0 then
    ⟨true, text_bytes, data_bytes, bss_bytes, (buf TOTB).toInt, (buf SYMB).toInt⟩
  else ⟨false, 0, u16 (data_bytes + text_bytes), bss_bytes, (buf TOTB).toInt, (buf SYMB).toInt⟩

/-- Bytes of the type `vir_bytes` in clicks: `(bytes + CLICK_SIZE - 1) >> CLICK_SHIFT`. -/
def virClicks (bytes : ℤ) : ℕ := u16 (bytes + CLICK_SIZE - 1) >>> CLICK_SHIFT

/-- Read the header and extract the text, data, bss and total sizes from it. -/
def readHeader (buf : Fin 8 → BitVec 32) (sc : ℕ) : Except ℤ ExecSizes :=
  if buf 0 &&& 0xFF0FFFFF ≠ MAGIC then .error ENOEXEC
  else if (buf TOTB).toInt = 0 then .error ENOEXEC
  else
    let sizes := execSizes buf
    let tc := virClicks sizes.text_bytes
    let dc := virClicks (sizes.data_bytes + sizes.bss_bytes)
    let totc := clicksOf sizes.tot_bytes
    if totc ≤ dc then .error ENOEXEC
    else
      let dvir := if sizes.separate then 0 else tc
      let s_vir := u16 (dvir + (totc - sc))
      if sizeOk sizes.separate tc dc sc dvir s_vir then .ok sizes else .error ENOMEM

/-- Transfer a block of data, as far as it can fail: the kernel refuses an address that is 0. -/
def memCopy (src_phys dst_phys bytes : ℤ) : ℤ :=
  if bytes = 0 then OK else if src_phys = 0 ∨ dst_phys = 0 then EFAULT else OK

/-- The loop of `new_mem` that zeroes the bss, gap, and stack segment from the buffer at `bf`. -/
def zeroMem (bf : ℤ) : ℕ → ℤ → ℤ → Option Unit
  | 0, _, _ => none
  | fuel + 1, base, bytes =>
    if bytes ≤ 0 then some ()
    else
      let count := min bytes ZEROBUF_SIZE
      if memCopy bf base count ≠ OK then none
      else zeroMem bf fuel (base + count) (bytes - count)

/-- The loop of `new_mem` takes fewer turns. -/
def zeroFuel : ℕ := 2 ^ 15

/-- The new core image: the entry with the new map, and the block of memory that it is in. -/
structure NewImage where
  table : HoleTable
  entry : MProc
  block : Span

/-- The clicks of a program that are allocated. -/
def newClicks (sizes : ExecSizes) : ℕ := u16 (virClicks sizes.text_bytes + clicksOf sizes.tot_bytes)

/-- The new map of a process. -/
def newMap (p : MProc) (new_base text_clicks data_clicks gap_clicks stack_clicks : ℕ) : MProc :=
  let d_phys := u16 (new_base + text_clicks)
  { p with
    segT := ⟨0, new_base, text_clicks⟩
    segD := ⟨0, d_phys, data_clicks⟩
    segS := ⟨u16 (data_clicks + gap_clicks), u16 (d_phys + data_clicks + gap_clicks), stack_clicks⟩ }

/-- Allocate new memory and release the old memory. `bf` is the physical address of the buffer of
zeroes. -/
def newMem (t : HoleTable) (p : MProc) (sizes : ExecSizes) (stk_bytes : ℕ) (bf : ℤ) :
    Option (Except ℤ NewImage) :=
  let text_clicks := virClicks sizes.text_bytes
  let data_clicks := virClicks (sizes.data_bytes + sizes.bss_bytes)
  let stack_clicks := virClicks stk_bytes
  let tot_clicks := clicksOf sizes.tot_bytes
  let gap_clicks := u16 (tot_clicks - data_clicks - stack_clicks)
  if int16 gap_clicks < 0 then some (.error ENOMEM)
  else
    (maxHole t).bind fun max =>
    if max < u16 (text_clicks + tot_clicks) then some (.error EAGAIN)
    else
      (freeMem t (released p).1 (released p).2).bind fun t =>
      -- We have now passed the point of no return.
      (allocMem t (u16 (text_clicks + tot_clicks))).bind fun (new_base, t) =>
      if new_base = NO_MEM then none
      else
        let p := newMap p new_base text_clicks data_clicks gap_clicks stack_clicks
        let bytes := (u16 (data_clicks + gap_clicks + stack_clicks) : ℤ) <<< CLICK_SHIFT
        let base := ((p.segT.mem_phys + p.segT.mem_len : ℕ) : ℤ) <<< CLICK_SHIFT
        let bss_offset := (sizes.data_bytes >>> CLICK_SHIFT) <<< CLICK_SHIFT
        (zeroMem bf zeroFuel (base + bss_offset) (bytes - bss_offset)).map fun _ =>
          .ok ⟨t, p, (new_base, u16 (text_clicks + tot_clicks))⟩

/-- The last part of `do_exec`, for the entry. `st_uid` is the owner of the file, if its set-uid bit
is on. -/
def execEntry (p : MProc) (separate : Bool) (st_uid : Option ℕ) : MProc :=
  { p with
    mp_effuid := if p.mp_flags.TRACED then p.mp_effuid else st_uid.getD p.mp_effuid
    mp_catch := 0
    mp_flags := { p.mp_flags with SEPARATE := separate } }

/-- Perform the execve(name, argv, envp) call, from the header of the file on. -/
def doExec (s : IntelState) (who : ProcNr) (buf : Fin 8 → BitVec 32) (stack_bytes bf : ℤ)
    (st_uid : Option ℕ) : Option (ℤ × IntelState) :=
  let stk_bytes := u16 stack_bytes
  if ARG_MAX < stk_bytes then some (ENOMEM, s)
  else
    match readHeader buf (virClicks stk_bytes) with
    | .error _ => some (ENOEXEC, s)
    | .ok sizes =>
      (newMem s.table (s.mm.mproc who) sizes stk_bytes bf).map fun
        | .error r => (r, s)
        | .ok image => (OK, {
            mm := s.mm.set who fun _ => execEntry image.entry sizes.separate st_uid
            table := image.table
            log := .got who image.block :: .freed who (released (s.mm.mproc who)) :: s.log })

/-! ## Runs -/

/-- What the calls that have nothing to do with memory leave alone. -/
structure SameMemory (mm mm' : MState) : Prop where
  segT : ∀ n, (mm'.mproc n).segT = (mm.mproc n).segT
  segD : ∀ n, (mm'.mproc n).segD = (mm.mproc n).segD
  segS : ∀ n, (mm'.mproc n).segS = (mm.mproc n).segS
  separate : ∀ n, (mm'.flags n).SEPARATE = (mm.flags n).SEPARATE
  in_use : ∀ n, (mm'.flags n).IN_USE = true → (mm.flags n).IN_USE = true

/-- What is done for a process. -/
inductive IntelCall
  | fork
  | exec (buf : Fin 8 → BitVec 32) (stack_bytes bf : ℤ) (st_uid : Option ℕ)
  | brk (addr : ℤ) (new_sp : ℕ)
  | sigProc (sig_nr : ℕ) (k : Outside)
  | stackFault (k : Outside)
  | mmExit (exit_status : ℤ)
  | other

/-- Something is done for a process that has an entry. The memory manager and the file system make
no calls, and get no signals. -/
inductive IntelStep : IntelState → ProcNr × IntelCall → IntelState → Prop
  | fork {s s' : IntelState} {n : ProcNr} {r : ℤ} (huser : INIT_PROC_NR ≤ n)
      (huse : (s.mm.flags n).IN_USE = true) (h : doFork s n = some (r, s')) :
      IntelStep s (n, .fork) s'
  | exec {s s' : IntelState} {n : ProcNr} {r : ℤ} {buf : Fin 8 → BitVec 32} {stack_bytes bf : ℤ}
      {st_uid : Option ℕ} (huser : INIT_PROC_NR ≤ n) (huse : (s.mm.flags n).IN_USE = true)
      (h : doExec s n buf stack_bytes bf st_uid = some (r, s')) :
      IntelStep s (n, .exec buf stack_bytes bf st_uid) s'
  | brk {s : IntelState} {n : ProcNr} {addr r res_ptr : ℤ} {new_sp : ℕ} {p : MProc}
      (huser : INIT_PROC_NR ≤ n) (huse : (s.mm.flags n).IN_USE = true)
      (h : doBrk n (s.mm.mproc n) addr new_sp = (r, res_ptr, p)) :
      IntelStep s (n, .brk addr new_sp) { s with mm := s.mm.set n fun _ => p }
  | sigProc {s s' : IntelState} {n : ProcNr} {sig_nr : ℕ} {k : Outside}
      (huser : INIT_PROC_NR ≤ n) (h : sigProc k s n sig_nr = some s') :
      IntelStep s (n, .sigProc sig_nr k) s'
  | stackFault {s s' : IntelState} {n : ProcNr} {k : Outside} (huser : INIT_PROC_NR ≤ n)
      (huse : (s.mm.flags n).IN_USE = true) (h : stackFault k s n = some s') :
      IntelStep s (n, .stackFault k) s'
  | mmExit {s s' : IntelState} {n : ProcNr} {exit_status : ℤ} (huser : INIT_PROC_NR ≤ n)
      (huse : (s.mm.flags n).IN_USE = true) (h : mmExit s n exit_status = some s') :
      IntelStep s (n, .mmExit exit_status) s'
  | other {s : IntelState} {n : ProcNr} {mm : MState} (h : SameMemory s.mm mm) :
      IntelStep s (n, .other) { s with mm := mm }

/-- Where the file system says that `INIT` is, and what of it is text. MINIX is loaded below 1 MB.
-/
structure InitSize where
  org : ℕ
  text : ℕ
  data : ℕ
  pos : 0 < org
  below : org + text + data ≤ 4096

/-- The memory of the system, which `do_brk2` removes from the map. -/
def InitSize.minixClicks (i : InitSize) : ℕ := i.org + (i.text + i.data)

/-- The segments that `do_brk2` gives `INIT`. -/
def InitSize.segs (i : InitSize) (n : ProcNr) : MemMap × MemMap × MemMap :=
  if n = INIT_PROC_NR then
    (⟨0, i.org, i.text⟩, ⟨0, i.org + i.text, i.data⟩,
      ⟨i.text + i.data, i.org + (i.text + i.data), 0⟩)
  else (⟨0, 0, 0⟩, ⟨0, 0, 0⟩, ⟨0, 0, 0⟩)

/-- The tables after `mm_init` and `do_brk2`. -/
def initState (i : InitSize) (table : HoleTable) : IntelState where
  mm := (mmInit i.segs).setFlags INIT_PROC_NR fun f => { f with SEPARATE := i.text != 0 }
  table := table
  log := []

/-- The system has started: the RAM disk is in extended memory, or its memory was removed from the
map too. -/
def IntelStart (phys : PhysMem) (s : IntelState) : Prop :=
  ∃ (i : InitSize) (t : HoleTable), MemStart phys ⟨t, [(0, i.minixClicks)]⟩ ∧
    (s = initState i t ∨ ∃ ram_clicks ram_base table, ram_base ≠ NO_MEM ∧
      allocMem t ram_clicks = some (ram_base, table) ∧ s = initState i table)

end Minix.Mm.Intel
