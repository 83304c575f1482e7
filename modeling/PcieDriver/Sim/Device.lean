import PcieDriver.Ring.Image

/-!
# The sim driver

The entry points of `pcie_prototype_sim/kernel/proto_pcie.c`. It has no rings: a command is done as
soon as it is sent. Its header is that of the ring driver less the last two ioctls.
-/

open Base
open PcieDriver.Ring (ProtoPcieCommand ProtoPcieInfo RegWrite Ioctl Reply Errno minU32 replied
  protoPcieMaxPayload regCtrl regDoorbell regDmaLo regDmaHi regDmaLen ctrlReset ctrlStart
  statusReady statusDone cmdLength cmdBytes PciResources DmaRegion)

namespace PcieDriver.Sim

/-- `struct proto_pcie_dev`. `dmaBuf` is memory from its pointer on. -/
structure ProtoPcieDev where
  simulated : Bool
  bar0Len : BitVec 64
  irq : BitVec 32
  dmaBuf : Mem
  dmaHandle : BitVec 64
  dmaLen : BitVec 64
  lastStatus : BitVec 32

/-- The device that `proto_sim_probe` sets up when its allocations work. -/
def protoSimProbe : ProtoPcieDev where
  simulated := true
  bar0Len := 0x1000
  irq := 0
  dmaBuf := Mem.zero
  dmaHandle := 0
  dmaLen := 4096
  lastStatus := statusReady

/-- The device that `proto_pci_probe` sets up when all its steps work. -/
def protoPciProbe (pdev : PciResources) : ProtoPcieDev × DmaRegion :=
  let d : ProtoPcieDev :=
    { simulated := false
      bar0Len := pdev.bar0Len
      irq := pdev.irq
      dmaBuf := Mem.zero
      dmaHandle := 0
      dmaLen := 4096
      lastStatus := 0 }
  ({ d with dmaBuf := pdev.dmaBuf, dmaHandle := pdev.dmaHandle }, ⟨d.dmaLen, pdev.dmaHandle⟩)

/-- In simulated mode the buffer is freed with `kfree`. -/
def protoDestroyDevice (d : ProtoPcieDev) : Option DmaRegion :=
  if d.simulated then none else some ⟨d.dmaLen, d.dmaHandle⟩

/-- `status` is what `REG_STATUS` reads, here and below. -/
def protoFinishReset (d : ProtoPcieDev) (status : BitVec 32) : ProtoPcieDev × List RegWrite :=
  if d.simulated then
    ({ d with dmaBuf := d.dmaBuf.clear 0 d.dmaLen.toNat, lastStatus := statusReady }, [])
  else ({ d with lastStatus := status }, [⟨regCtrl, ctrlReset⟩, ⟨regCtrl, 0⟩])

def protoSubmitCommand (d : ProtoPcieDev) (cmdbuf : ProtoPcieCommand) (status : BitVec 32) :
    ProtoPcieDev × List RegWrite :=
  let n := minU32 cmdbuf.length (BitVec.ofNat 32 protoPcieMaxPayload)
  let payload := cmdbuf.payload.toList.take n.toNat
  let d := if 0 < n then { d with dmaBuf := d.dmaBuf.put 0 payload } else d
  let d := { d with dmaLen := n.setWidth 64 }
  if d.simulated then ({ d with lastStatus := statusReady ||| statusDone }, [])
  else
    ({ d with lastStatus := status },
      [⟨regDmaLo, d.dmaHandle.setWidth 32⟩, ⟨regDmaHi, (d.dmaHandle >>> 32).setWidth 32⟩,
        ⟨regDmaLen, n⟩, ⟨regDoorbell, cmdbuf.opcode⟩, ⟨regCtrl, ctrlStart⟩])

/-- The ring driver's last two ioctls are unknown here. -/
def protoIoctl (d : ProtoPcieDev) (status : BitVec 32) :
    Ioctl → ProtoPcieDev × List RegWrite × Except Errno Reply
  | .getInfo copied => (d, [], replied copied (.info ⟨d.bar0Len.setWidth 32, d.irq, 64, 64⟩))
  | .reset => ((protoFinishReset d status).1, (protoFinishReset d status).2, .ok .done)
  | .sendCmd copied cmdbuf =>
    if !copied then (d, [], .error .efault)
    else ((protoSubmitCommand d cmdbuf status).1, (protoSubmitCommand d cmdbuf status).2, .ok .done)
  | .getStatus copied => (d, [], replied copied (.status d.lastStatus))
  | .processPending | .getRingState _ | .other => (d, [], .error .enotty)

/-! ## What a command does -/

section
variable (d : ProtoPcieDev) (c : ProtoPcieCommand) (status : BitVec 32)

theorem no_bytes (hn : ¬ 0 < cmdLength c) : cmdBytes c = [] := by
  apply List.eq_nil_of_length_eq_zero
  rw [Ring.cmdBytes_length]
  rw [BitVec.lt_def] at hn
  exact Nat.eq_zero_of_not_pos hn

theorem toNat_dmaLen : ((cmdLength c).setWidth 64).toNat = (cmdLength c).toNat := by
  rw [BitVec.toNat_setWidth]
  exact Nat.mod_eq_of_lt (by omega)

/-- No copy is made of an empty payload, which is as good as a copy of it. -/
theorem submit_spec :
    protoSubmitCommand d c status =
      ({ d with
        dmaBuf := d.dmaBuf.put 0 (cmdBytes c)
        dmaLen := (cmdLength c).setWidth 64
        lastStatus := if d.simulated then statusReady ||| statusDone else status },
      if d.simulated then []
      else [⟨regDmaLo, d.dmaHandle.setWidth 32⟩, ⟨regDmaHi, (d.dmaHandle >>> 32).setWidth 32⟩,
        ⟨regDmaLen, cmdLength c⟩, ⟨regDoorbell, c.opcode⟩, ⟨regCtrl, ctrlStart⟩]) := by
  by_cases hn : 0 < cmdLength c
  · rw [cmdLength] at hn
    simp only [protoSubmitCommand, if_pos hn]
    split_ifs <;> rfl
  · rw [no_bytes c hn, Mem.put_nil]
    rw [cmdLength] at hn
    simp only [protoSubmitCommand, if_neg hn]
    split_ifs <;> rfl

end

/-! ## Simulated mode -/

/-- The device after an ioctl. `REG_STATUS` is not read, so that 0 stands for it. -/
def ioctlStep (d : ProtoPcieDev) (io : Ioctl) : ProtoPcieDev := (protoIoctl d 0 io).1

def reply (d : ProtoPcieDev) (io : Ioctl) : Except Errno Reply := (protoIoctl d 0 io).2.2

section
variable {d : ProtoPcieDev} (h : d.simulated = true)
include h

theorem submit_sim (c : ProtoPcieCommand) (status : BitVec 32) :
    protoSubmitCommand d c status =
      ({ d with
        dmaBuf := d.dmaBuf.put 0 (cmdBytes c)
        dmaLen := (cmdLength c).setWidth 64
        lastStatus := statusReady ||| statusDone }, []) := by
  rw [submit_spec, h]
  rfl

theorem reset_sim (status : BitVec 32) :
    protoFinishReset d status =
      ({ d with dmaBuf := d.dmaBuf.clear 0 d.dmaLen.toNat, lastStatus := statusReady }, []) := by
  rw [protoFinishReset, if_pos h]

theorem status_unread (status : BitVec 32) (io : Ioctl) :
    protoIoctl d status io = protoIoctl d 0 io := by
  cases io <;> simp only [protoIoctl, submit_sim h, reset_sim h]

theorem ioctl_send (c : ProtoPcieCommand) :
    ioctlStep d (.sendCmd true c) =
      { d with
        dmaBuf := d.dmaBuf.put 0 (cmdBytes c)
        dmaLen := (cmdLength c).setWidth 64
        lastStatus := statusReady ||| statusDone } :=
  congrArg Prod.fst (submit_sim h c 0)

theorem ioctl_reset :
    ioctlStep d .reset =
      { d with dmaBuf := d.dmaBuf.clear 0 d.dmaLen.toNat, lastStatus := statusReady } :=
  congrArg Prod.fst (reset_sim h 0)

end

end PcieDriver.Sim
