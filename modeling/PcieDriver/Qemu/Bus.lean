import PcieDriver.Base.Machine
import PcieDriver.Qemu.Device

/-!
# What comes over the bus

The device sees register writes, in any order and of any value, and the deadlines of its timer. For
each there is one lemma that says what becomes of the status, the line and the timer.
-/

open PcieDriver.Ring (RegWrite regCtrl ctrlReset ctrlStart statusReady statusDone)

namespace PcieDriver.Qemu

inductive BusEvent
  | write (w : RegWrite)
  | expire
  deriving DecidableEq

def busStep (s : ProtoPcieState) : BusEvent → ProtoPcieState
  | .write w => protoPcieMmioWrite s w
  | .expire => timerExpires s

/-- A write of `REG_CTRL` with `CTRL_RESET` set. -/
def resets (w : RegWrite) : Bool := w.reg = regCtrl ∧ w.value &&& ctrlReset ≠ 0

/-- A write of `REG_CTRL` with `CTRL_START` set. -/
def starts (w : RegWrite) : Bool := w.reg = regCtrl ∧ w.value &&& ctrlStart ≠ 0

variable (s : ProtoPcieState) (w : RegWrite)

theorem write_effect :
    (protoPcieMmioWrite s w).status = (if resets w || starts w then statusReady else s.status) ∧
      (protoPcieMmioWrite s w).irq = (s.irq && !resets w) ∧
      (protoPcieMmioWrite s w).timer = (s.timer || starts w) := by
  unfold protoPcieMmioWrite resets starts
  by_cases hctrl : w.reg = regCtrl
  · simp only [hctrl, if_true]
    generalize w.value &&& ctrlReset = reset, w.value &&& ctrlStart = start
    by_cases hreset : reset = 0#32 <;> by_cases hstart : start = 0#32 <;>
      simp [hreset, hstart, protoPcieLowerIrq]
  · simp only [hctrl, if_false, false_and, decide_false, Bool.or_false, Bool.not_false, Bool.and_true,
      Bool.false_eq_true]
    split_ifs <;> exact ⟨rfl, rfl, rfl⟩

theorem expire_effect :
    (timerExpires s).status = (if s.timer then statusReady ||| statusDone else s.status) ∧
      (timerExpires s).irq = (s.irq || s.timer) ∧ (timerExpires s).timer = false := by
  unfold timerExpires
  split_ifs with htimer
  · simp [protoPcieComplete, protoPcieRaiseIrq, htimer]
  · simp [htimer]

@[simp] theorem read_status : protoPcieMmioRead s regStatus = s.status := rfl

end PcieDriver.Qemu
