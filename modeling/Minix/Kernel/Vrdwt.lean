import Minix.Kernel.MemTask

/-!
# Vectors of disk requests

`do_vrdwt` of `kernel/misc.c`, which a disk task calls for `SCATTERED_IO`. The requests are handled
one at a time by a function of the task, and their status is returned in the vector. The state that
the function works on, with the memory, is any type, and so is what an address is.
-/

namespace Minix.Kernel

open Lib

/-- Bit set for a request that need not be done. -/
def OPTIONAL_IO : BitVec 16 := 16

/-- The number of requests that a vector may have, which is `NR_BUFS`. -/
abbrev NR_IOVEC : ℕ := 30

/-- An element of an i/o vector. The count is an unsigned short, in which the status is returned. -/
structure IoRequest (β : Type*) where
  io_position : ℤ
  io_buf : β
  io_nbytes : ℤ
  io_request : BitVec 16

/-- The message for one request. -/
structure RdwtMess (β : Type*) where
  m_type : ℤ
  DEVICE : ℤ
  PROC_NR : ℤ
  COUNT : ℤ
  POSITION : ℤ
  ADDRESS : β

variable {σ β : Type*}

/-- The message that a request is handled by. -/
def IoRequest.mess (iop : IoRequest β) (device proc_nr : ℤ) : RdwtMess β where
  m_type := (iop.io_request &&& ~~~ OPTIONAL_IO).toInt
  DEVICE := device
  PROC_NR := proc_nr
  COUNT := iop.io_nbytes
  POSITION := iop.io_position
  ADDRESS := iop.io_buf

/-- The loop over the requests. -/
def handleRequests (do_rdwt : RdwtMess β → σ → ℤ × σ) (device proc_nr : ℤ) :
    List (IoRequest β) → σ → List (IoRequest β) × σ
  | [], s => ([], s)
  | iop :: iovec, s =>
    let r := do_rdwt (iop.mess device proc_nr) s
    let result := r.1
    if result = 0 then (iop :: iovec, r.2)
    else if result < 0 then
      let iop := { iop with io_nbytes := uint16 result }
      if iop.io_request &&& OPTIONAL_IO ≠ 0 then (iop :: iovec, r.2)
      else
        let t := handleRequests do_rdwt device proc_nr iovec r.2
        (iop :: t.1, t.2)
    else
      let t := handleRequests do_rdwt device proc_nr iovec r.2
      ({ iop with io_nbytes := uint16 (iop.io_nbytes - result) } :: t.1, t.2)

/-- Handle a vector of requests, which must not be too big. -/
def doVrdwt (do_rdwt : RdwtMess β → σ → ℤ × σ) (device proc_nr : ℤ) (iovec : List (IoRequest β))
    (s : σ) : Option (List (IoRequest β) × σ) :=
  if iovec.length > NR_IOVEC then none else some (handleRequests do_rdwt device proc_nr iovec s)

end Minix.Kernel
