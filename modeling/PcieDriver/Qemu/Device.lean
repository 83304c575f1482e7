import PcieDriver.Ring.Device

/-!
# The device model

`pcie_prototype_async/qemu/proto_pcie_device.c`. It has one timer, which a start arms anew, and an
interrupt line that only a reset lowers.
-/

open PcieDriver.Ring (RegWrite regCtrl regDoorbell regDmaLen ctrlReset ctrlStart statusReady
  statusDone)

namespace PcieDriver.Qemu

def regStatus : Nat := 0x04
def regIrqAck : Nat := 0x0C
def regVersion : Nat := 0x1C

/-- `struct ProtoPcieState`. `irq` is the level of the line, and `timer` tells whether
`completion_timer` is armed. -/
structure ProtoPcieState where
  timer : Bool
  irq : Bool
  status : BitVec 32
  lastOpcode : BitVec 32
  lastLength : BitVec 32
  dmaAddr : BitVec 64
  dmaLen : BitVec 32

/-- `proto_pcie_realize`. -/
def protoPcieRealize : ProtoPcieState where
  timer := false
  irq := false
  status := statusReady
  lastOpcode := 0
  lastLength := 0
  dmaAddr := 0
  dmaLen := 0

def protoPcieRaiseIrq (s : ProtoPcieState) : ProtoPcieState := { s with irq := true }

def protoPcieLowerIrq (s : ProtoPcieState) : ProtoPcieState := { s with irq := false }

def protoPcieComplete (s : ProtoPcieState) : ProtoPcieState :=
  protoPcieRaiseIrq { s with status := statusReady ||| statusDone }

/-- The deadline passes. A timer that is not armed does nothing. -/
def timerExpires (s : ProtoPcieState) : ProtoPcieState :=
  if s.timer then protoPcieComplete { s with timer := false } else s

def protoPcieMmioRead (s : ProtoPcieState) (addr : Nat) : BitVec 32 :=
  if addr = regStatus then s.status else if addr = regVersion then 0x00010000 else 0

/-- `REG_IRQ_ACK`, `REG_DMA_LO` and `REG_DMA_HI` are ignored. -/
def protoPcieMmioWrite (s : ProtoPcieState) (w : RegWrite) : ProtoPcieState :=
  if w.reg = regCtrl then
    let s := if w.value &&& ctrlReset ≠ 0 then
        protoPcieLowerIrq { s with status := statusReady } else s
    if w.value &&& ctrlStart ≠ 0 then { s with status := statusReady, timer := true } else s
  else if w.reg = regDoorbell then { s with lastOpcode := w.value }
  else if w.reg = regDmaLen then { s with dmaLen := w.value }
  else s

end PcieDriver.Qemu
