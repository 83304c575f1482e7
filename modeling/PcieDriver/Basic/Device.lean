import PcieDriver.Ring.Device

/-!
# The basic driver

The entry points of `pcie_prototype/kernel/proto_pcie.c`, which knows no simulated mode. Its header
is that of the sim driver.
-/

open Base
open PcieDriver.Ring (RegWrite Ioctl Reply Errno minU32 replied protoPcieMaxPayload regCtrl
  regDoorbell regDmaLo regDmaHi regDmaLen ctrlReset ctrlStart)

namespace PcieDriver.Basic

structure ProtoPcieDev where
  bar0Len : BitVec 64
  irq : BitVec 32
  dmaBuf : Mem
  dmaHandle : BitVec 64
  dmaLen : BitVec 64
  lastStatus : BitVec 32

/-- `status` is what `REG_STATUS` reads. -/
def protoIoctl (d : ProtoPcieDev) (status : BitVec 32) :
    Ioctl → ProtoPcieDev × List RegWrite × Except Errno Reply
  | .getInfo copied => (d, [], replied copied (.info ⟨d.bar0Len.setWidth 32, d.irq, 64, 64⟩))
  | .reset =>
    ({ d with lastStatus := status }, [⟨regCtrl, ctrlReset⟩, ⟨regCtrl, 0⟩], .ok .done)
  | .sendCmd copied cmdbuf =>
    if !copied then (d, [], .error .efault)
    else
      let n := minU32 cmdbuf.length (BitVec.ofNat 32 protoPcieMaxPayload)
      let payload := cmdbuf.payload.toList.take n.toNat
      let d := if 0 < n then { d with dmaBuf := d.dmaBuf.put 0 payload } else d
      ({ d with dmaLen := n.setWidth 64, lastStatus := status },
        [⟨regDmaLo, d.dmaHandle.setWidth 32⟩, ⟨regDmaHi, (d.dmaHandle >>> 32).setWidth 32⟩,
          ⟨regDmaLen, n⟩, ⟨regDoorbell, cmdbuf.opcode⟩, ⟨regCtrl, ctrlStart⟩], .ok .done)
  | .getStatus copied => (d, [], replied copied (.status d.lastStatus))
  | .processPending | .getRingState _ | .other => (d, [], .error .enotty)

end PcieDriver.Basic
