import PcieDriver.Base.Machine
import PcieDriver.Basic.Device
import PcieDriver.Qemu.Device
import PcieDriver.Sim.Device

/-!
# The path to the registers

In hardware mode the three drivers do the same: they copy the payload, set `dma_len`, write five
registers and read `REG_STATUS` back.
-/

open Base
open PcieDriver.Ring (ProtoPcieCommand Ioctl Reply Errno RegWrite cmdLength cmdBytes regCtrl
  regDoorbell regDmaLo regDmaHi regDmaLen ctrlReset ctrlStart)

namespace PcieDriver.Hw

/-! ## What the drivers share -/

/-- The fields that this path uses. -/
structure Core where
  dmaBuf : Mem
  dmaHandle : BitVec 64
  dmaLen : BitVec 64
  lastStatus : BitVec 32

/-- The two ioctls that go to the device. -/
inductive Call
  | send (cmdbuf : ProtoPcieCommand)
  | reset

def callOf : Ioctl → Option Call
  | .sendCmd true c => some (.send c)
  | .reset => some .reset
  | _ => none

/-- What a call does to the fields before it comes to the registers. -/
def Core.fill (k : Core) : Call → Core
  | .send c => { k with dmaBuf := k.dmaBuf.put 0 (cmdBytes c), dmaLen := (cmdLength c).setWidth 64 }
  | .reset => k

def Core.writes (k : Core) : Call → List RegWrite
  | .send c => [⟨regDmaLo, k.dmaHandle.setWidth 32⟩, ⟨regDmaHi, (k.dmaHandle >>> 32).setWidth 32⟩,
      ⟨regDmaLen, cmdLength c⟩, ⟨regDoorbell, c.opcode⟩, ⟨regCtrl, ctrlStart⟩]
  | .reset => [⟨regCtrl, ctrlReset⟩, ⟨regCtrl, 0⟩]

/-- The fields after a call that read `status`. -/
def Core.after (k : Core) (call : Call) (status : BitVec 32) : Core :=
  { k.fill call with lastStatus := status }

/-- `proto_irq_handler`, which is the same in all three. -/
def protoIrqHandler (k : Core) (status : BitVec 32) : Core × List RegWrite :=
  ({ k with lastStatus := status }, [⟨Qemu.regIrqAck, status⟩])

section
variable {σ : Type} (hw : σ → Prop) (core : σ → Core)

/-- The outcome of an ioctl that took this path from `k`. -/
structure OnPath (k : Core) (status : BitVec 32) (call : Option Call)
    (out : σ × List RegWrite × Except Errno Reply) : Prop where
  mode : hw out.1
  fields : core out.1 = call.elim k fun call => k.after call status
  writes : out.2.1 = call.elim [] k.writes

/-- A driver takes this path while `hw` holds of it. -/
def TakesPath (ioctl : σ → BitVec 32 → Ioctl → σ × List RegWrite × Except Errno Reply) : Prop :=
  ∀ d status io, hw d → OnPath hw core (core d) status (callOf io) (ioctl d status io)

end

/-! ## The three drivers -/

def ringCore (d : Ring.ProtoPcieDev) : Core := ⟨d.dmaBuf, d.dmaHandle, d.dmaLen, d.lastStatus⟩
def simCore (d : Sim.ProtoPcieDev) : Core := ⟨d.dmaBuf, d.dmaHandle, d.dmaLen, d.lastStatus⟩
def basicCore (d : Basic.ProtoPcieDev) : Core := ⟨d.dmaBuf, d.dmaHandle, d.dmaLen, d.lastStatus⟩

theorem basic_send (d : Basic.ProtoPcieDev) (status : BitVec 32) (c : ProtoPcieCommand) :
    Basic.protoIoctl d status (.sendCmd true c) =
      ({ d with
        dmaBuf := d.dmaBuf.put 0 (cmdBytes c)
        dmaLen := (cmdLength c).setWidth 64
        lastStatus := status }, (basicCore d).writes (.send c), .ok .done) := by
  by_cases hn : 0 < cmdLength c
  · rw [cmdLength] at hn
    simp only [Basic.protoIoctl, if_pos hn]
    rfl
  · rw [Sim.no_bytes c hn, Mem.put_nil]
    rw [cmdLength] at hn
    simp only [Basic.protoIoctl, if_neg hn]
    rfl

theorem basic_path : TakesPath (fun _ => True) basicCore Basic.protoIoctl := by
  intro d status io _
  cases io with
  | sendCmd copied c =>
    cases copied with
    | true =>
      rw [basic_send]
      exact ⟨trivial, rfl, rfl⟩
    | false => exact ⟨trivial, rfl, rfl⟩
  | getInfo | reset | processPending | getStatus | getRingState | other => exact ⟨trivial, rfl, rfl⟩

section
variable {d : Sim.ProtoPcieDev} (h : d.simulated = false) (status : BitVec 32)
include h

theorem sim_send (c : ProtoPcieCommand) :
    Sim.protoIoctl d status (.sendCmd true c) =
      ({ d with
        dmaBuf := d.dmaBuf.put 0 (cmdBytes c)
        dmaLen := (cmdLength c).setWidth 64
        lastStatus := status }, (simCore d).writes (.send c), .ok .done) := by
  simp only [Sim.protoIoctl, Sim.submit_spec, h, Bool.not_true, Bool.false_eq_true, if_false]
  rfl

theorem sim_reset :
    Sim.protoIoctl d status .reset =
      ({ d with lastStatus := status }, (simCore d).writes .reset, .ok .done) := by
  simp only [Sim.protoIoctl, Sim.protoFinishReset, h, Bool.false_eq_true, if_false]
  rfl

end

theorem sim_path : TakesPath (fun d => d.simulated = false) simCore Sim.protoIoctl := by
  intro d status io h
  cases io with
  | sendCmd copied c =>
    cases copied with
    | true =>
      rw [sim_send h]
      exact ⟨h, rfl, rfl⟩
    | false => exact ⟨h, rfl, rfl⟩
  | reset =>
    rw [sim_reset h]
    exact ⟨h, rfl, rfl⟩
  | getInfo | processPending | getStatus | getRingState | other => exact ⟨h, rfl, rfl⟩

section
variable {d : Ring.ProtoPcieDev} (h : d.simulated = false) (status : BitVec 32)
include h

theorem ring_send (c : ProtoPcieCommand) :
    Ring.protoIoctl d status (.sendCmd true c) =
      ((Ring.protoHwSend d c status).1, (ringCore d).writes (.send c), .ok .done) := by
  rw [Ring.protoIoctl, h]
  rfl

theorem ring_reset :
    Ring.protoIoctl d status .reset =
      ({ d with lastStatus := status }, (ringCore d).writes .reset, .ok .done) := by
  simp only [Ring.protoIoctl, Ring.protoFinishReset, h, Bool.false_eq_true, if_false]
  rfl

theorem ring_process : Ring.protoIoctl d status .processPending = (d, [], .ok .done) := by
  rw [Ring.protoIoctl, h]
  rfl

theorem ring_state (copied : Bool) :
    Ring.protoIoctl d status (.getRingState copied) = (d, [], .error .enotsupp) := by
  rw [Ring.protoIoctl, h]
  rfl

end

theorem ring_path : TakesPath (fun d => d.simulated = false) ringCore Ring.protoIoctl := by
  intro d status io h
  cases io with
  | sendCmd copied c =>
    cases copied with
    | true =>
      rw [ring_send h]
      exact ⟨h, rfl, rfl⟩
    | false => exact ⟨h, rfl, rfl⟩
  | reset =>
    rw [ring_reset h]
    exact ⟨h, rfl, rfl⟩
  | processPending =>
    rw [ring_process h]
    exact ⟨h, rfl, rfl⟩
  | getRingState copied =>
    rw [ring_state h]
    exact ⟨h, rfl, rfl⟩
  | getInfo | getStatus | other => exact ⟨h, rfl, rfl⟩

end PcieDriver.Hw
