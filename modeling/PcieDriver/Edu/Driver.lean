import PcieDriver.Edu.Layout
import Mathlib.Data.List.FinRange

/-!
# The driver

The entry points of `kernel/edu_pci.c`. Each takes the device structure and what it reads from
the registers, and gives the new structure, the register writes in order, and the return code.
A blocking ioctl is cut at the points where it waits.
-/

open Base

namespace PcieDriver.Edu

/-! ## Registers and return codes -/

def eduRegFact : Nat := 0x08
def eduRegStatus : Nat := 0x20
def eduRegIrqAck : Nat := 0x64
def eduRegDmaSrc : Nat := 0x80
def eduRegDmaDst : Nat := 0x88
def eduRegDmaCnt : Nat := 0x90
def eduRegDmaCmd : Nat := 0x98

def eduStatusIrqEn : BitVec 32 := 0x80
def eduDmaBufOffset : BitVec 64 := 0x40000
def eduDmaCmdStart : BitVec 32 := 0x01
def eduDmaCmdDir : BitVec 32 := 0x02
def eduDmaCmdIrq : BitVec 32 := 0x04

/-- A register write. The register is its offset in BAR 0. -/
inductive MmioWrite
  | writel (value : BitVec 32) (reg : Nat)
  | writeq (value : BitVec 64) (reg : Nat)
  deriving DecidableEq

inductive Errno
  | enospc | einval | eagain | efault | etimedout | eio
  deriving DecidableEq

/-! ## Requests and the device structure -/

structure EduSubmitReq where
  tag : BitVec 16
  opcode : BitVec 8
  operand : BitVec 32
  deriving DecidableEq

structure EduCompletionReq where
  tag : BitVec 16
  status : BitVec 8
  result : BitVec 32
  deriving DecidableEq

/-- `struct edu_dev`. The counters are unbounded, and an eventfd context is a number. -/
structure EduDev where
  slab : Mem
  dmaHandle : BitVec 64
  irqDone : Bool
  sqTail : BitVec 32
  cqTail : BitVec 32
  cqHead : BitVec 32
  inflight : Fin ringSize → BitVec 8
  evtCtx : Option Nat
  lastIrq : BitVec 32
  lastFactIn : BitVec 32
  lastFactOut : BitVec 32
  dmaOk : BitVec 32
  statIrqTotal : Nat
  statSqSubmitted : Nat
  statCqPosted : Nat
  statCqConsumed : Nat
  statDmaErrors : Nat
  statFactorialOps : Nat
  statEventfdSignals : Nat
  injectFault : BitVec 32

/-- The structure that `edu_probe` leaves: zeroed, with the slab that it allocated. -/
def eduProbe (slab : Mem) (dmaHandle : BitVec 64) : EduDev where
  slab := slab
  dmaHandle := dmaHandle
  irqDone := false
  sqTail := 0
  cqTail := 0
  cqHead := 0
  inflight := fun _ => 0
  evtCtx := none
  lastIrq := 0
  lastFactIn := 0
  lastFactOut := 0
  dmaOk := 0
  statIrqTotal := 0
  statSqSubmitted := 0
  statCqPosted := 0
  statCqConsumed := 0
  statDmaErrors := 0
  statFactorialOps := 0
  statEventfdSignals := 0
  injectFault := 0

/-! ## Ring indices -/

def ringNext (idx : BitVec 32) : BitVec 32 := (idx + 1) &&& ringMask

def ringFull (tail head : BitVec 32) : Bool := ringNext tail == head &&& ringMask

theorem toNat_and_ringMask (idx : BitVec 32) : (idx &&& ringMask).toNat = idx.toNat % 64 := by
  rw [BitVec.toNat_and]
  exact Nat.and_two_pow_sub_one_eq_mod _ 6

/-- `idx & RING_MASK`, as the number of a slot. -/
def slotOf (idx : BitVec 32) : Fin ringSize :=
  ⟨(idx &&& ringMask).toNat, by rw [toNat_and_ringMask]; exact Nat.mod_lt _ (by decide)⟩

theorem slotOf_val (idx : BitVec 32) : (slotOf idx).val = idx.toNat % 64 := toNat_and_ringMask idx

/-! ## Interrupts -/

/-- The scan of `inflight[]`: the first slot that is not 0, and the loop stops there. -/
def firstInflight (e : EduDev) : Option (Fin ringSize) :=
  (List.finRange ringSize).find? fun i => e.inflight i != 0

/-- The entry that the handler writes for slot `i`. `fact` is what `REG_FACT` reads now. -/
def completionOf (e : EduDev) (i : Fin ringSize) (fact : BitVec 32) : CqEntry where
  tag := (sqAt e.slab i).tag
  status := 0
  flags := 0
  result := if (sqAt e.slab i).opcode = eduOpFactorial then fact else 0
  rsvd := 0

/-- The part of the loop body under `ring_lock` that retires slot `i`. -/
def postCompletion (e : EduDev) (i : Fin ringSize) (fact : BitVec 32) : EduDev :=
  { e with
    slab := setCq e.slab (slotOf e.cqTail) (completionOf e i fact)
    cqTail := ringNext e.cqTail
    inflight := Function.update e.inflight i 0
    statCqPosted := e.statCqPosted + 1
    statEventfdSignals := e.statEventfdSignals + if e.evtCtx.isSome then 1 else 0 }

/-- What one call of the handler does beside changing the structure. -/
structure IrqReport where
  handled : Bool
  writes : List MmioWrite
  posted : Option (Fin ringSize × CqEntry)
  signalled : Option Nat

/-- `irqStat` is what `REG_IRQ_STAT` reads, and `fact` what `REG_FACT` reads if it is read. -/
def eduIrqHandler (e : EduDev) (irqStat fact : BitVec 32) : EduDev × IrqReport :=
  if irqStat = 0 then (e, ⟨false, [], none, none⟩)
  else
    let ack := MmioWrite.writel irqStat eduRegIrqAck
    let e := { e with lastIrq := irqStat, statIrqTotal := e.statIrqTotal + 1, irqDone := true }
    match firstInflight e with
    | none => (e, ⟨true, [ack], none, none⟩)
    | some i => (postCompletion e i fact, ⟨true, [ack], some (i, completionOf e i fact), e.evtCtx⟩)

/-! ## Ring submit and poll -/

/-- What `edu_ring_submit` does under `ring_lock` when the ring has room. -/
def claimSlot (e : EduDev) (req : EduSubmitReq) : EduDev :=
  { e with
    slab := setSq e.slab (slotOf e.sqTail) ⟨req.tag, req.opcode, 0, req.operand, 0⟩
    inflight := Function.update e.inflight (slotOf e.sqTail) req.opcode
    sqTail := ringNext e.sqTail
    statSqSubmitted := e.statSqSubmitted + 1 }

/-- The kick after the lock is released. It reads the structure and changes nothing in it. -/
def kickWrites (e : EduDev) (req : EduSubmitReq) : Except Errno (List MmioWrite) :=
  if req.opcode = eduOpFactorial then
    .ok [.writel eduStatusIrqEn eduRegStatus, .writel req.operand eduRegFact]
  else if req.opcode = eduOpDmaTest then
    .ok [.writel 0 eduRegStatus, .writeq e.dmaHandle eduRegDmaSrc,
      .writeq eduDmaBufOffset eduRegDmaDst, .writeq (BitVec.ofNat 64 eduDmaTestLen) eduRegDmaCnt,
      .writel (eduDmaCmdStart ||| eduDmaCmdIrq) eduRegDmaCmd]
  else .error .einval

def eduRingSubmit (e : EduDev) (req : EduSubmitReq) :
    EduDev × List MmioWrite × Except Errno Unit :=
  if ringFull e.sqTail e.cqHead then (e, [], .error .enospc)
  else
    match kickWrites e req with
    | .ok writes => (claimSlot e req, writes, .ok ())
    | .error err => (claimSlot e req, [], .error err)

def eduPollCq (e : EduDev) : EduDev × Except Errno EduCompletionReq :=
  if e.cqHead = e.cqTail then (e, .error .eagain)
  else
    let cqe := cqAt e.slab (slotOf e.cqHead)
    ({ e with cqHead := ringNext e.cqHead, statCqConsumed := e.statCqConsumed + 1 },
      .ok ⟨cqe.tag, cqe.status, cqe.result⟩)

/-! ## Legacy ioctls -/

/-- `edu_run_factorial` up to `edu_wait_irq`. -/
def factorialStart (e : EduDev) (input : BitVec 32) : EduDev × List MmioWrite :=
  ({ e with lastFactIn := input, lastIrq := 0, statFactorialOps := e.statFactorialOps + 1 },
    [.writel eduStatusIrqEn eduRegStatus, .writel input eduRegFact])

/-- `edu_run_factorial` after a wake-up. `fact` is what `REG_FACT` reads. -/
def factorialFinish (e : EduDev) (fact : BitVec 32) : EduDev := { e with lastFactOut := fact }

/-- The first step of `edu_wait_irq`. -/
def reinitCompletion (e : EduDev) : EduDev := { e with irqDone := false }

/-- What `edu_wait_irq` returns if its wait ends now. -/
def waitResult (e : EduDev) : Except Errno Unit :=
  if e.irqDone then .ok () else .error .etimedout

def pattern : List Byte :=
  [0x45, 0x44, 0x55, 0x20, 0x44, 0x4d, 0x41, 0x20,
   0x72, 0x6f, 0x75, 0x6e, 0x64, 0x74, 0x72, 0x69,
   0x70, 0x20, 0x74, 0x65, 0x73, 0x74, 0x20, 0x70,
   0x61, 0x74, 0x74, 0x65, 0x72, 0x6e, 0x20, 0x31,
   0x32, 0x33, 0x34, 0x35, 0x36, 0x37, 0x38, 0x39,
   0x30, 0x61, 0x62, 0x63, 0x64, 0x65, 0x66, 0x67,
   0x68, 0x69, 0x6a, 0x6b, 0x6c, 0x6d, 0x6e, 0x6f,
   0x70, 0x71, 0x72, 0x73, 0x74, 0x75, 0x76, 0x77]

theorem pattern_length : pattern.length = eduDmaTestLen := by decide

def zeroPayload : List Byte := List.replicate eduDmaTestLen 0

/-- `edu_run_dma_test` up to its first wait: RAM to device. -/
def dmaTestStart (e : EduDev) : EduDev × List MmioWrite :=
  ({ e with slab := setPayload e.slab pattern, lastIrq := 0 },
    [.writel 0 eduRegStatus, .writeq e.dmaHandle eduRegDmaSrc,
      .writeq eduDmaBufOffset eduRegDmaDst, .writeq (BitVec.ofNat 64 eduDmaTestLen) eduRegDmaCnt,
      .writel (eduDmaCmdStart ||| eduDmaCmdIrq) eduRegDmaCmd])

/-- `edu_run_dma_test` from its first wake-up to its second wait: device to RAM. -/
def dmaTestReadBack (e : EduDev) : EduDev × List MmioWrite :=
  ({ e with slab := setPayload e.slab zeroPayload, lastIrq := 0 },
    [.writeq eduDmaBufOffset eduRegDmaSrc, .writeq e.dmaHandle eduRegDmaDst,
      .writeq (BitVec.ofNat 64 eduDmaTestLen) eduRegDmaCnt,
      .writel (eduDmaCmdStart ||| eduDmaCmdDir ||| eduDmaCmdIrq) eduRegDmaCmd])

/-- `edu_run_dma_test` after its second wake-up. -/
def dmaTestFinish (e : EduDev) : EduDev × Except Errno Unit :=
  if e.slab.get 0 eduDmaTestLen ≠ pattern then
    ({ e with statDmaErrors := e.statDmaErrors + 1 }, .error .eio)
  else if e.injectFault = 1 then
    ({ e with injectFault := 0, statDmaErrors := e.statDmaErrors + 1 }, .error .eio)
  else ({ e with dmaOk := 1 }, .ok ())

/-! ## File operations -/

def eduOpen (e : EduDev) : EduDev :=
  { e with sqTail := 0, cqTail := 0, cqHead := 0, inflight := fun _ => 0 }

def epollIn : BitVec 32 := 0x01
def epollRdNorm : BitVec 32 := 0x40

def eduPoll (e : EduDev) : BitVec 32 :=
  if e.cqHead ≠ e.cqTail then epollIn ||| epollRdNorm else 0

/-- `EDU_IOC_SUBMIT`. `copied` tells whether `copy_from_user` worked. -/
def eduIocSubmit (e : EduDev) (copied : Bool) (req : EduSubmitReq) :
    EduDev × List MmioWrite × Except Errno Unit :=
  if copied then eduRingSubmit e req else (e, [], .error .efault)

/-- `EDU_IOC_POLL_CQ`. `copied` tells whether `copy_to_user` worked. -/
def eduIocPollCq (e : EduDev) (copied : Bool) : EduDev × Except Errno EduCompletionReq :=
  match eduPollCq e with
  | (e, .error err) => (e, .error err)
  | (e, .ok out) => (e, if copied then .ok out else .error .efault)

/-- `EDU_IOC_SET_EVENTFD` with a context that `eventfd_ctx_fdget` returned. -/
def eduIocSetEventfd (e : EduDev) (ctx : Nat) : EduDev := { e with evtCtx := some ctx }

/-- `ring_inflight`, as debugfs prints it. -/
def ringInflight (e : EduDev) : BitVec 32 := (e.cqTail - e.cqHead) &&& ringMask

def eduDbgfsStatsWrite (e : EduDev) : EduDev :=
  { e with
    statIrqTotal := 0
    statSqSubmitted := 0
    statCqPosted := 0
    statCqConsumed := 0
    statDmaErrors := 0
    statFactorialOps := 0
    statEventfdSignals := 0 }

end PcieDriver.Edu
