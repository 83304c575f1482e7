import PcieDriver.Qemu.Bus

/-!
# A reset does not stop the timer

A write of `CTRL_RESET` makes the device ready and lowers the line. The timer that a start has armed
goes on, and completes a command that was cancelled.
-/

open Base
open PcieDriver.Ring (RegWrite regCtrl ctrlReset ctrlStart statusReady statusDone)

namespace PcieDriver.Qemu

structure Watched where
  dev : ProtoPcieState
  /-- `CTRL_RESET` was written without `CTRL_START`, and `CTRL_START` not since. -/
  cancelled : Bool

/-- After `proto_pcie_realize`. -/
def realized : Watched := ⟨protoPcieRealize, false⟩

def watch (s : Watched) (e : BusEvent) : Watched where
  dev := busStep s.dev e
  cancelled :=
    match e with
    | .write w => !starts w && (resets w || s.cancelled)
    | .expire => s.cancelled

/-- A device that was reset is ready, and reports nothing. -/
def Quiet (s : Watched) : Prop :=
  s.cancelled = true →
    protoPcieMmioRead s.dev regStatus &&& statusReady ≠ 0 ∧
      protoPcieMmioRead s.dev regStatus &&& statusDone = 0 ∧ s.dev.irq = false

/-- While the reset is in force no armed timer comes to its deadline. -/
def NotArmed (s : Watched) : BusEvent → Prop
  | .write _ => True
  | .expire => s.cancelled = true → s.dev.timer = false

/-- What a reset leaves, in the terms of the device. -/
def Silent (s : Watched) : Prop :=
  s.cancelled = true → s.dev.status = statusReady ∧ s.dev.irq = false

section
variable {s : Watched}

theorem Silent.quiet (h : Silent s) : Quiet s := by
  intro hcancelled
  obtain ⟨hstatus, hirq⟩ := h hcancelled
  rw [read_status, hstatus]
  exact ⟨by decide, by decide, hirq⟩

theorem Silent.write (h : Silent s) (w : RegWrite) : Silent (watch s (.write w)) := by
  intro hcancelled
  obtain ⟨hstatus, hirq, -⟩ := write_effect s.dev w
  simp only [watch, Bool.and_eq_true, Bool.not_eq_true', Bool.or_eq_true] at hcancelled
  obtain ⟨hstart, hreset | hbefore⟩ := hcancelled
  · simp [watch, busStep, hstatus, hirq, hreset]
  · obtain ⟨hstatus', hirq'⟩ := h hbefore
    simp [watch, busStep, hstatus, hirq, hstatus', hirq']

theorem Silent.expire (h : Silent s) (harmed : s.cancelled = true → s.dev.timer = false) :
    Silent (watch s .expire) := by
  intro hcancelled
  obtain ⟨hstatus, hirq, -⟩ := expire_effect s.dev
  obtain ⟨hstatus', hirq'⟩ := h hcancelled
  simp [watch, busStep, hstatus, hirq, hstatus', hirq', harmed hcancelled]

theorem Quiet.not_armed (h : Quiet (watch s .expire)) (hcancelled : s.cancelled = true) :
    s.dev.timer = false := by
  obtain ⟨-, -, hirq⟩ := h hcancelled
  obtain ⟨-, hline, -⟩ := expire_effect s.dev
  exact (Bool.or_eq_false_iff.mp (hline.symm.trans hirq)).2

theorem quiet_step (h : Silent s) (e : BusEvent) : Quiet (watch s e) ↔ NotArmed s e := by
  cases e with
  | write w => exact ⟨fun _ => trivial, fun _ => (h.write w).quiet⟩
  | expire => exact ⟨Quiet.not_armed, fun harmed => (h.expire harmed).quiet⟩

theorem silent_step (h : Silent s) (e : BusEvent) (hq : Quiet (watch s e)) : Silent (watch s e) := by
  cases e with
  | write w => exact h.write w
  | expire => exact h.expire hq.not_armed

end

/-- **A reset cancels what was started if and only if the timer does not run out on it.** -/
theorem reset_cancels_iff (es : List BusEvent) :
    Always watch Quiet realized es ↔ Along watch NotArmed realized es := by
  have h0 : Silent realized := fun h => by cases h
  rw [always_iff_along, and_iff_right h0.quiet]
  exact along_iff (fun s e h => quiet_step h e) (fun s e h hq => silent_step h e hq) h0

/-- Start, reset, and the deadline passes. -/
theorem reset_overrun :
    let es : List BusEvent :=
      [.write ⟨regCtrl, ctrlStart⟩, .write ⟨regCtrl, ctrlReset⟩, .expire]
    ¬ Always watch Quiet realized es := by
  intro es h
  have hirq := (h.last rfl).2.2
  exact absurd hirq (by decide)

end PcieDriver.Qemu
