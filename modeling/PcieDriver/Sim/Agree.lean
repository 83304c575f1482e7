import PcieDriver.Ring.History
import PcieDriver.Sim.Device

/-!
# The sim driver agrees with the ring driver

One driver shrinks `dma_len` with each command and never clears the rest of its buffer, and the other
copies through a slot and fills up with zeros. A caller that sends a command to the one, and sends
and processes it on the other, cannot tell them apart as far as `dma_len` reaches.
-/

open Base
open PcieDriver.Ring (ProtoPcieCommand Ioctl CmdLedger cmdLength cmdBytes dmaOf statusOf sysOf
  protoPcieMaxPayload)

namespace PcieDriver.Sim

/-! ## Both drivers -/

inductive Op
  | send (cmdbuf : ProtoPcieCommand)
  | reset

def Op.onSim : Op → List Ioctl
  | .send c => [.sendCmd true c]
  | .reset => [.reset]

def Op.onRing : Op → List Ioctl
  | .send c => [.sendCmd true c, .processPending]
  | .reset => [.reset]

structure Pair where
  sim : ProtoPcieDev
  ring : Ring.Sys

def step (p : Pair) (op : Op) : Pair where
  sim := run ioctlStep p.sim op.onSim
  ring := run Ring.step p.ring op.onRing

def probed : Pair := ⟨protoSimProbe, Ring.probed⟩

/-- What a caller sees of the two. -/
structure Agree (p : Pair) : Prop where
  status : ∀ copied, reply p.sim (.getStatus copied) = p.ring.reply (.getStatus copied)
  buffer : ∀ i < p.sim.dmaLen.toNat, p.sim.dmaBuf i = p.ring.dev.dmaBuf i

def Accepted (p : Pair) : Op → Prop
  | .send c => reply p.sim (.sendCmd true c) = .ok .done ∧
      p.ring.reply (.sendCmd true c) = .ok .done
  | .reset => True

/-! ## Why -/

/-- The ring driver stands where the ledger says, with nothing waiting, and the sim driver is as far
as the last command. -/
structure Coupled (p : Pair) (l : CmdLedger) : Prop where
  ring : p.ring = sysOf l
  idle : l.waiting = []
  simulated : p.sim.simulated = true
  status : p.sim.lastStatus = statusOf l.done []
  buffer : ∀ i < p.sim.dmaLen.toNat, p.sim.dmaBuf i = dmaOf l.done.getLast? i

theorem coupled_probed : Coupled probed Ledger.empty where
  ring := Ring.probed_eq
  idle := rfl
  simulated := rfl
  status := rfl
  buffer := fun _ _ => rfl

section
variable {p : Pair} {l : CmdLedger}

theorem Coupled.agree (h : Coupled p l) : Agree p where
  status := by
    intro copied
    have hstatus : (Ring.deviceOf l).lastStatus = statusOf l.done l.waiting := rfl
    have hring : p.ring.reply (.getStatus copied) =
        Ring.replied copied (.status (statusOf l.done l.waiting)) := by rw [h.ring]; rfl
    have hsim : reply p.sim (.getStatus copied) =
        Ring.replied copied (.status p.sim.lastStatus) := rfl
    rw [hring, hsim, h.status, h.idle]
  buffer := by
    intro i hi
    rw [h.buffer i hi, h.ring]
    rfl

theorem dmaOf_some (c : ProtoPcieCommand) {i : Nat} (hi : i < (cmdBytes c).length) :
    dmaOf (some c) i = (cmdBytes c).getD i 0 := by
  have hlen := Ring.padded_length c
  have hle := Ring.cmdBytes_length_le c
  unfold protoPcieMaxPayload at hle
  rw [dmaOf, Mem.put_front _ _ (by omega), Mem.getD_pad]

theorem Coupled.send (h : Coupled p l) (c : ProtoPcieCommand) :
    Coupled (step p (.send c)) (l.add c).finish := by
  have hroom : l.waiting.length < 64 := by rw [h.idle]; decide
  have hdone : (l.add c).finish.done = l.all ++ [c] := Ledger.add_room hroom
  have hsim : (step p (.send c)).sim = _ := ioctl_send h.simulated c
  constructor
  · have hring : (step p (.send c)).ring =
        Ring.step (Ring.step p.ring (.sendCmd true c)) .processPending := rfl
    rw [hring, h.ring, Ring.step_sysOf, Ring.step_sysOf]
    rfl
  · rfl
  · rw [hsim]
    exact h.simulated
  · rw [hsim, hdone, statusOf, if_pos ⟨by simp, rfl⟩]
  · rw [hsim, hdone, List.getLast?_concat]
    intro i hi
    rw [toNat_dmaLen, ← Ring.cmdBytes_length] at hi
    rw [dmaOf_some c hi]
    exact Mem.put_front _ _ hi

theorem Coupled.reset (h : Coupled p l) : Coupled (step p .reset) Ledger.empty := by
  have hsim : (step p .reset).sim = _ := ioctl_reset h.simulated
  constructor
  · have hring : (step p .reset).ring = Ring.step p.ring .reset := rfl
    rw [hring, h.ring, Ring.step_sysOf]
    rfl
  · rfl
  · rw [hsim]
    exact h.simulated
  · rw [hsim]
    rfl
  · rw [hsim]
    intro i hi
    have hcleared : 0 ≤ i ∧ i < 0 + p.sim.dmaLen.toNat := ⟨Nat.zero_le i, by rwa [Nat.zero_add]⟩
    exact (Mem.clear_apply ..).trans (if_pos hcleared)

theorem Coupled.step (h : Coupled p l) (op : Op) : ∃ l', Coupled (step p op) l' := by
  cases op with
  | send c => exact ⟨_, h.send c⟩
  | reset => exact ⟨_, h.reset⟩

theorem Coupled.accepted (h : Coupled p l) (op : Op) : Accepted p op := by
  cases op with
  | send c =>
    refine ⟨rfl, ?_⟩
    rw [h.ring, Ring.reply_send, h.idle]
    rfl
  | reset => trivial

end

/-- **The two drivers agree**: after every step of any sequence they report the same status and
have the same bytes below the sim driver's `dma_len`, and no command is refused. -/
theorem sim_agrees_with_ring (ops : List Op) :
    Always step Agree probed ops ∧ Along step Accepted probed ops := by
  have hcoupled : Always step (fun p => ∃ l, Coupled p l) probed ops :=
    Always.of_inv (fun _ op ⟨_, h⟩ => h.step op) ⟨_, coupled_probed⟩
  refine ⟨hcoupled.mono fun _ ⟨_, h⟩ => h.agree, ?_⟩
  exact Along.of_always hcoupled (along_of_forall fun _ _ _ => trivial)
    fun _ op ⟨_, h⟩ _ => h.accepted op

end PcieDriver.Sim
