import PcieDriver.Ring.History

/-!
# What the status says

`last_status` is written when a command goes in, when one is done and at a reset. A drain that finds
nothing and a send that is refused leave it alone. It still tells whether all the work is done.
-/

open Base

namespace PcieDriver.Ring

def statusError : BitVec 32 := 0x04

/-- How the bits of a status go with the commands. -/
structure StatusTells (s : Sys) (status : BitVec 32) : Prop where
  ready : status &&& statusReady ≠ 0
  clear : status &&& statusError = 0
  done : status &&& statusDone ≠ 0 ↔ s.unprocessed = [] ∧ 0 < s.processed
  pending : s.dev.cmdPending = 0 ↔ s.unprocessed = []

theorem statusOf_bits (done waiting : List ProtoPcieCommand) :
    statusOf done waiting &&& statusReady ≠ 0 ∧ statusOf done waiting &&& statusError = 0 ∧
      (statusOf done waiting &&& statusDone ≠ 0 ↔ waiting = [] ∧ 0 < done.length) := by
  have hpos : 0 < done.length ↔ done ≠ [] := List.length_pos_iff
  rw [statusOf, hpos]
  split_ifs with h
  · exact ⟨by decide, by decide, fun _ => ⟨h.2, h.1⟩, fun _ => by decide⟩
  · exact ⟨by decide, by decide, fun hset => absurd hset (by decide),
      fun hall => absurd ⟨hall.2, hall.1⟩ h⟩

theorem cmdPending_zero (l : CmdLedger) : (deviceOf l).cmdPending = 0 ↔ l.waiting = [] := by
  rw [← BitVec.toNat_inj, toNat_cmdPending]
  exact List.length_eq_zero_iff

/-- **The status tells what is left to do**: after any ioctls `PROTO_PCIE_IOC_GET_STATUS` reports
READY and no ERROR, and DONE if and only if some command has been processed and none waits. -/
theorem status_tells (es : List Ioctl) :
    ∃ status, (run step probed es).reply (.getStatus true) = .ok (.status status) ∧
      StatusTells (run step probed es) status := by
  rw [run_sysOf]
  set l := ledgerAfter es
  obtain ⟨hready, hclear, hdone⟩ := statusOf_bits l.done l.waiting
  refine ⟨statusOf l.done l.waiting, rfl, hready, hclear, ?_, ?_⟩
  · rw [unprocessed_sysOf, processed_sysOf]
    exact hdone
  · rw [unprocessed_sysOf]
    exact cmdPending_zero l

end PcieDriver.Ring
