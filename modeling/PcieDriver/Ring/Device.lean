import PcieDriver.Base.Cells

/-!
# The ring driver

The entry points of `pcie_prototype_ring/kernel/proto_pcie.c`. The command ring and the payload area
have one index, and the completion ring has another. In hardware mode the same ioctls go to the
registers instead.
-/

open Base

namespace PcieDriver.Ring

/-! ## Constants -/

def protoPcieMaxPayload : Nat := 256
def protoPcieSimRingEntries : BitVec 32 := 64
def protoPcieSimRingEntrySize : BitVec 32 := 64
def protoSimPayloadPreview : Nat := 48

def regCtrl : Nat := 0x00
def regDoorbell : Nat := 0x08
def regDmaLo : Nat := 0x10
def regDmaHi : Nat := 0x14
def regDmaLen : Nat := 0x18

def ctrlReset : BitVec 32 := 0x01
def ctrlStart : BitVec 32 := 0x02
def statusReady : BitVec 32 := 0x01
def statusDone : BitVec 32 := 0x02

inductive Errno
  | enospc | efault | enotty | enotsupp
  deriving DecidableEq

/-- `proto_writel`. -/
structure RegWrite where
  reg : Nat
  value : BitVec 32
  deriving DecidableEq

/-! ## Data -/

structure ProtoPcieCommand where
  opcode : BitVec 32
  length : BitVec 32
  payload : Vector Byte protoPcieMaxPayload
  deriving DecidableEq

structure ProtoSimRingEntry where
  opcode : BitVec 32
  length : BitVec 32
  seqno : BitVec 32
  checksum : BitVec 32
  payloadPreview : List Byte
  deriving DecidableEq

structure ProtoSimCompletionEntry where
  opcode : BitVec 32
  status : BitVec 32
  length : BitVec 32
  seqno : BitVec 32
  reserved : List Byte
  deriving DecidableEq

/-- `struct proto_pcie_dev`. The rings are what their pointers point to, and `cmdPayloads` and
`dmaBuf` are memory from their pointers on. -/
structure ProtoPcieDev where
  simulated : Bool
  bar0Len : BitVec 64
  irq : BitVec 32
  dmaBuf : Mem
  dmaHandle : BitVec 64
  dmaLen : BitVec 64
  lastStatus : BitVec 32
  ringEntries : BitVec 32
  ringEntrySize : BitVec 32
  cmdRing : Nat → ProtoSimRingEntry
  compRing : Nat → ProtoSimCompletionEntry
  cmdPayloads : Mem
  cmdHead : BitVec 32
  cmdTail : BitVec 32
  cmdPending : BitVec 32
  compHead : BitVec 32
  compTail : BitVec 32
  compPending : BitVec 32
  completedTotal : BitVec 32
  lastOpcode : BitVec 32
  lastLength : BitVec 32
  nextSeqno : BitVec 32

structure ProtoPcieInfo where
  bar0Len : BitVec 32
  irq : BitVec 32
  ringEntries : BitVec 32
  ringEntrySize : BitVec 32
  deriving DecidableEq

structure ProtoPcieRingState where
  cmdHead : BitVec 32
  cmdTail : BitVec 32
  cmdPending : BitVec 32
  compHead : BitVec 32
  compTail : BitVec 32
  compPending : BitVec 32
  completedTotal : BitVec 32
  lastOpcode : BitVec 32
  lastLength : BitVec 32
  lastStatus : BitVec 32
  nextSeqno : BitVec 32
  deriving DecidableEq

/-- An entry after `memset`. -/
def zeroEntry : ProtoSimRingEntry := ⟨0, 0, 0, 0, List.replicate protoSimPayloadPreview 0⟩

def zeroCompletion : ProtoSimCompletionEntry :=
  ⟨0, 0, 0, 0, List.replicate protoSimPayloadPreview 0⟩

/-! ## Helpers -/

/-- `min_t(u32, a, b)`. -/
def minU32 (a b : BitVec 32) : BitVec 32 := if a < b then a else b

def protoChecksum (buf : List Byte) (len : BitVec 32) : BitVec 32 :=
  (buf.take len.toNat).foldl (fun sum b => sum + b.setWidth 32) 0

/-- `memset` of the first `n` entries. -/
def clearEntries {α : Type} (z : α) (n : Nat) (ring : Nat → α) : Nat → α :=
  fun i => if i < n then z else ring i

/-! ## Simulated mode -/

def protoSimClearRings (d : ProtoPcieDev) : ProtoPcieDev :=
  { d with
    cmdRing := clearEntries zeroEntry d.ringEntries.toNat d.cmdRing
    compRing := clearEntries zeroCompletion d.ringEntries.toNat d.compRing
    cmdPayloads := d.cmdPayloads.clear 0 (d.ringEntries.toNat * protoPcieMaxPayload)
    cmdHead := 0
    cmdTail := 0
    cmdPending := 0
    compHead := 0
    compTail := 0
    compPending := 0
    completedTotal := 0
    lastOpcode := 0
    lastLength := 0
    nextSeqno := 1 }

def protoSimStoreCompletion (d : ProtoPcieDev) (opcode status length seqno : BitVec 32) :
    ProtoPcieDev :=
  { d with
    compRing := Function.update d.compRing d.compTail.toNat
      ⟨opcode, status, length, seqno, List.replicate protoSimPayloadPreview 0⟩
    compTail := (d.compTail + 1) % d.ringEntries
    compPending := if d.compPending < d.ringEntries then d.compPending + 1 else d.compPending }

def protoSimEnqueueCommand (d : ProtoPcieDev) (cmdbuf : ProtoPcieCommand) :
    ProtoPcieDev × Except Errno Unit :=
  if d.ringEntries ≤ d.cmdPending then (d, .error .enospc)
  else
    let slot := d.cmdTail.toNat
    let n := minU32 cmdbuf.length (BitVec.ofNat 32 protoPcieMaxPayload)
    let payload := cmdbuf.payload.toList
    let entry : ProtoSimRingEntry :=
      { opcode := cmdbuf.opcode
        length := n
        seqno := d.nextSeqno
        checksum := protoChecksum payload n
        payloadPreview := Mem.pad protoSimPayloadPreview
          (payload.take (minU32 n (BitVec.ofNat 32 protoSimPayloadPreview)).toNat) }
    ({ d with
      nextSeqno := d.nextSeqno + 1
      cmdRing := Function.update d.cmdRing slot entry
      cmdPayloads := (d.cmdPayloads.clear (slot * protoPcieMaxPayload) protoPcieMaxPayload).put
        (slot * protoPcieMaxPayload) (payload.take n.toNat)
      cmdTail := (d.cmdTail + 1) % d.ringEntries
      cmdPending := d.cmdPending + 1
      lastStatus := statusReady }, .ok ())

/-- One round of the loop of `proto_sim_process_pending`. -/
def protoSimProcessOne (d : ProtoPcieDev) : ProtoPcieDev :=
  let head := d.cmdHead.toNat
  let entry := d.cmdRing head
  let n := entry.length
  let copied := minU32 n (d.dmaLen.setWidth 32)
  let d := { d with
    dmaBuf := (d.dmaBuf.clear 0 d.dmaLen.toNat).put 0
      (d.cmdPayloads.get (head * protoPcieMaxPayload) copied.toNat)
    lastOpcode := entry.opcode
    lastLength := n
    lastStatus := statusReady ||| statusDone
    completedTotal := d.completedTotal + 1 }
  let d := protoSimStoreCompletion d entry.opcode d.lastStatus n entry.seqno
  { d with
    cmdHead := (d.cmdHead + 1) % d.ringEntries
    cmdPending := d.cmdPending - 1 }

def protoSimDrain : Nat → ProtoPcieDev → ProtoPcieDev
  | 0, d => d
  | rounds + 1, d =>
    if 0 < d.cmdPending then protoSimDrain rounds (protoSimProcessOne d) else d

/-- Each round takes one command, so `cmd_pending` rounds are enough. -/
def protoSimProcessPending (d : ProtoPcieDev) : ProtoPcieDev :=
  protoSimDrain d.cmdPending.toNat d

theorem drain_ends (rounds : Nat) (d : ProtoPcieDev) (h : d.cmdPending.toNat = rounds) :
    (protoSimDrain rounds d).cmdPending = 0 := by
  induction rounds generalizing d with
  | zero => exact BitVec.eq_of_toNat_eq h
  | succ rounds ih =>
    have hpos : 0 < d.cmdPending := by
      rw [BitVec.lt_def, h]
      exact Nat.succ_pos rounds
    have hnext : (protoSimProcessOne d).cmdPending = d.cmdPending - 1 := rfl
    rw [protoSimDrain, if_pos hpos]
    apply ih
    rw [hnext, BitVec.toNat_sub_of_le (BitVec.le_def.mpr (by simp [h])), h]
    rfl

/-- The loop ends, and not before the queue is empty. -/
theorem process_pending_ends (d : ProtoPcieDev) : (protoSimProcessPending d).cmdPending = 0 :=
  drain_ends _ d rfl

def protoSimGetRingState (d : ProtoPcieDev) : ProtoPcieRingState where
  cmdHead := d.cmdHead
  cmdTail := d.cmdTail
  cmdPending := d.cmdPending
  compHead := d.compHead
  compTail := d.compTail
  compPending := d.compPending
  completedTotal := d.completedTotal
  lastOpcode := d.lastOpcode
  lastLength := d.lastLength
  lastStatus := d.lastStatus
  nextSeqno := d.nextSeqno

/-- The device that `proto_sim_probe` sets up when all its allocations work. -/
def protoSimProbe : ProtoPcieDev :=
  protoSimClearRings
    { simulated := true
      bar0Len := 0x1000
      irq := 0
      dmaBuf := Mem.zero
      dmaHandle := 0
      dmaLen := 4096
      lastStatus := statusReady
      ringEntries := protoPcieSimRingEntries
      ringEntrySize := protoPcieSimRingEntrySize
      cmdRing := fun _ => zeroEntry
      compRing := fun _ => zeroCompletion
      cmdPayloads := Mem.zero
      cmdHead := 0
      cmdTail := 0
      cmdPending := 0
      compHead := 0
      compTail := 0
      compPending := 0
      completedTotal := 0
      lastOpcode := 0
      lastLength := 0
      nextSeqno := 0 }

/-! ## Hardware mode -/

/-- What `proto_pci_probe` finds and gets. The buffer holds anything. -/
structure PciResources where
  bar0Len : BitVec 64
  irq : BitVec 32
  dmaBuf : Mem
  dmaHandle : BitVec 64

/-- The arguments of `dma_alloc_coherent` and of `dma_free_coherent`. -/
structure DmaRegion where
  size : BitVec 64
  handle : BitVec 64
  deriving DecidableEq

/-- The device that `proto_pci_probe` sets up when all its steps work. It has no rings. -/
def protoPciProbe (pdev : PciResources) : ProtoPcieDev × DmaRegion :=
  let d : ProtoPcieDev :=
    { simulated := false
      bar0Len := pdev.bar0Len
      irq := pdev.irq
      dmaBuf := Mem.zero
      dmaHandle := 0
      dmaLen := 4096
      lastStatus := 0
      ringEntries := protoPcieSimRingEntries
      ringEntrySize := protoPcieSimRingEntrySize
      cmdRing := fun _ => zeroEntry
      compRing := fun _ => zeroCompletion
      cmdPayloads := Mem.zero
      cmdHead := 0
      cmdTail := 0
      cmdPending := 0
      compHead := 0
      compTail := 0
      compPending := 0
      completedTotal := 0
      lastOpcode := 0
      lastLength := 0
      nextSeqno := 0 }
  ({ d with dmaBuf := pdev.dmaBuf, dmaHandle := pdev.dmaHandle }, ⟨d.dmaLen, pdev.dmaHandle⟩)

/-- What `proto_destroy_device` gives back to the DMA allocator. In simulated mode the buffer is
freed with `kfree`. -/
def protoDestroyDevice (d : ProtoPcieDev) : Option DmaRegion :=
  if d.simulated then none else some ⟨d.dmaLen, d.dmaHandle⟩

/-! ## The ioctls -/

/-- `status` is what `REG_STATUS` reads, here and below. -/
def protoFinishReset (d : ProtoPcieDev) (status : BitVec 32) : ProtoPcieDev × List RegWrite :=
  if d.simulated then
    ({ protoSimClearRings { d with dmaBuf := d.dmaBuf.clear 0 d.dmaLen.toNat } with
      lastStatus := statusReady }, [])
  else ({ d with lastStatus := status }, [⟨regCtrl, ctrlReset⟩, ⟨regCtrl, 0⟩])

/-- The hardware path of `PROTO_PCIE_IOC_SEND_CMD`. -/
def protoHwSend (d : ProtoPcieDev) (cmdbuf : ProtoPcieCommand) (status : BitVec 32) :
    ProtoPcieDev × List RegWrite :=
  let n := minU32 cmdbuf.length (BitVec.ofNat 32 protoPcieMaxPayload)
  ({ d with
    dmaBuf := d.dmaBuf.put 0 (cmdbuf.payload.toList.take n.toNat)
    dmaLen := n.setWidth 64
    lastStatus := status },
    [⟨regDmaLo, d.dmaHandle.setWidth 32⟩, ⟨regDmaHi, (d.dmaHandle >>> 32).setWidth 32⟩,
      ⟨regDmaLen, n⟩, ⟨regDoorbell, cmdbuf.opcode⟩, ⟨regCtrl, ctrlStart⟩])

/-- `copied` tells whether the copy from or to user space worked, and `other` is any number that
the driver does not know. -/
inductive Ioctl
  | getInfo (copied : Bool)
  | reset
  | sendCmd (copied : Bool) (cmdbuf : ProtoPcieCommand)
  | processPending
  | getStatus (copied : Bool)
  | getRingState (copied : Bool)
  | other
  deriving DecidableEq

inductive Reply
  | done
  | info (info : ProtoPcieInfo)
  | status (status : BitVec 32)
  | ringState (state : ProtoPcieRingState)
  deriving DecidableEq

def replied (copied : Bool) (reply : Reply) : Except Errno Reply :=
  if copied then .ok reply else .error .efault

def protoIoctl (d : ProtoPcieDev) (status : BitVec 32) :
    Ioctl → ProtoPcieDev × List RegWrite × Except Errno Reply
  | .getInfo copied =>
    (d, [], replied copied
      (.info ⟨d.bar0Len.setWidth 32, d.irq, d.ringEntries, d.ringEntrySize⟩))
  | .reset => ((protoFinishReset d status).1, (protoFinishReset d status).2, .ok .done)
  | .sendCmd copied cmdbuf =>
    if !copied then (d, [], .error .efault)
    else if d.simulated then
      ((protoSimEnqueueCommand d cmdbuf).1, [], (protoSimEnqueueCommand d cmdbuf).2.map fun _ => .done)
    else ((protoHwSend d cmdbuf status).1, (protoHwSend d cmdbuf status).2, .ok .done)
  | .processPending =>
    (if d.simulated then protoSimProcessPending d else d, [], .ok .done)
  | .getStatus copied => (d, [], replied copied (.status d.lastStatus))
  | .getRingState copied =>
    if d.simulated then (d, [], replied copied (.ringState (protoSimGetRingState d)))
    else (d, [], .error .enotsupp)
  | .other => (d, [], .error .enotty)

end PcieDriver.Ring
