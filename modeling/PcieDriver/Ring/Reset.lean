import PcieDriver.Ring.History

/-!
# A reset is as good as a new device

Probe and reset set up the fields in two different functions. What a caller can see after a reset is
what it would see after a probe.
-/

open Base

namespace PcieDriver.Ring

theorem reset_sysOf (l : CmdLedger) : step (sysOf l) .reset = probed := by
  rw [step_sysOf, probed_eq]
  rfl

/-- **A reset leads back to the probe**: from any state that can be reached, the ioctls after a reset
return what they return on a new device and leave the same device behind. -/
theorem reset_like_probe (es ios : List Ioctl) :
    let s := step (run step probed es) .reset
    trace step Sys.reply s ios = trace step Sys.reply probed ios ∧
      (run step s ios).dev = (run step probed ios).dev := by
  intro s
  have hs : s = probed := by
    rw [← reset_sysOf (ledgerAfter es), ← run_sysOf]
  rw [hs]
  exact ⟨rfl, rfl⟩

end PcieDriver.Ring
