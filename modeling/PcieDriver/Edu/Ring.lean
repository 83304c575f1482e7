import PcieDriver.Base.Fifo
import PcieDriver.Base.Table
import PcieDriver.Edu.Driver

/-!
# What the ring operations do

A ring index is read as a position that never wraps: `At idx p` says that `idx` is the index of
position `p`. Each entry point of the driver then has one lemma for each of its branches.
-/

open Base

namespace PcieDriver.Edu

/-! ## Positions -/

def At (idx : BitVec 32) (p : Nat) : Prop := idx.toNat = p % ringSize

theorem at_zero : At 0 0 := rfl

theorem toNat_ringNext (idx : BitVec 32) : (ringNext idx).toNat = (idx.toNat + 1) % 64 := by
  rw [ringNext, toNat_and_ringMask, BitVec.toNat_add, show (1 : BitVec 32).toNat = 1 from rfl]
  omega

section
variable {a b : BitVec 32} {p q : Nat}

theorem At.next (h : At a p) : At (ringNext a) (p + 1) := by
  unfold At ringSize at *
  rw [toNat_ringNext, h]
  omega

theorem At.slot (h : At a p) : (slotOf a).val = p % ringSize := by
  simp only [At, ringSize, slotOf] at *
  rw [toNat_and_ringMask, h]
  omega

theorem At.eq_iff (ha : At a p) (hb : At b q) (hle : p ≤ q) (hlt : q < p + ringSize) :
    a = b ↔ p = q := by
  rw [← BitVec.toNat_inj, ha, hb]
  constructor
  · intro h
    exact eq_of_mod_eq h (by unfold ringSize at *; omega) hlt
  · rintro rfl
    rfl

theorem At.full_iff (ha : At a q) (hb : At b p) (hle : p ≤ q) (hlt : q < p + ringSize) :
    ringFull a b = true ↔ q = p + 63 := by
  have hnext := ha.next
  unfold At ringSize at *
  rw [ringFull, beq_iff_eq, ← BitVec.toNat_inj, hnext, toNat_and_ringMask, hb]
  omega

theorem At.sub (ha : At a q) (hb : At b p) (hle : p ≤ q) (hlt : q < p + ringSize) :
    ((a - b) &&& ringMask).toNat = q - p := by
  unfold At ringSize at *
  rw [toNat_and_ringMask, BitVec.toNat_sub, ha, hb]
  omega

end

/-! ## The handler's scan -/

theorem firstInflight_none {e : EduDev} :
    firstInflight e = none ↔ inUse e.inflight = ∅ := by
  rw [firstInflight, find_finRange_eq_none, inUse_eq_empty]
  simp

theorem firstInflight_some {e : EduDev} {i : Fin ringSize} :
    firstInflight e = some i ↔ e.inflight i ≠ 0 ∧ ∀ j < i, e.inflight j = 0 := by
  rw [firstInflight, find_finRange_eq_some]
  simp

theorem irq_ignored (e : EduDev) (fact : BitVec 32) :
    eduIrqHandler e 0 fact = (e, ⟨false, [], none, none⟩) := rfl

/-- The structure after the handler has acknowledged, before it takes the lock. -/
def acknowledged (e : EduDev) (stat : BitVec 32) : EduDev :=
  { e with lastIrq := stat, statIrqTotal := e.statIrqTotal + 1, irqDone := true }

section
variable {e : EduDev} {stat fact : BitVec 32} {i : Fin ringSize}

theorem irq_idle (hstat : stat ≠ 0) (h : firstInflight e = none) :
    eduIrqHandler e stat fact =
      (acknowledged e stat, ⟨true, [.writel stat eduRegIrqAck], none, none⟩) := by
  have h' : firstInflight (acknowledged e stat) = none := h
  simp only [acknowledged] at h'
  simp only [eduIrqHandler, if_neg hstat, h', acknowledged]

theorem irq_posts (hstat : stat ≠ 0) (h : firstInflight e = some i) :
    eduIrqHandler e stat fact =
      (postCompletion (acknowledged e stat) i fact,
        ⟨true, [.writel stat eduRegIrqAck], some (i, completionOf e i fact), e.evtCtx⟩) := by
  have h' : firstInflight (acknowledged e stat) = some i := h
  simp only [acknowledged] at h'
  simp only [eduIrqHandler, if_neg hstat, h', acknowledged]
  rfl

end

/-! ## Submit and poll -/

section
variable {e : EduDev} {req : EduSubmitReq}

theorem submit_full (h : ringFull e.sqTail e.cqHead = true) :
    eduRingSubmit e req = (e, [], .error .enospc) := by
  simp [eduRingSubmit, h]

/-- With room in the ring the slot is claimed, whatever the opcode is. -/
theorem submit_claims (h : ringFull e.sqTail e.cqHead = false) :
    (eduRingSubmit e req).1 = claimSlot e req := by
  simp only [eduRingSubmit, h, Bool.false_eq_true, if_false]
  cases kickWrites e req <;> rfl

def ValidOpcode (req : EduSubmitReq) : Prop :=
  req.opcode = eduOpFactorial ∨ req.opcode = eduOpDmaTest

instance (req : EduSubmitReq) : Decidable (ValidOpcode req) :=
  inferInstanceAs (Decidable (_ ∨ _))

theorem ValidOpcode.ne_zero (h : ValidOpcode req) : req.opcode ≠ 0 := by
  rcases h with h | h <;> rw [h] <;> decide

theorem kickWrites_valid (h : ValidOpcode req) : ∃ writes, kickWrites e req = .ok writes := by
  unfold kickWrites
  rcases h with h | h
  · exact ⟨_, if_pos h⟩
  · exact ⟨_, by rw [if_neg (by rw [h]; decide), if_pos h]⟩

theorem kickWrites_invalid (h : ¬ ValidOpcode req) : kickWrites e req = .error .einval := by
  rw [ValidOpcode, not_or] at h
  rw [kickWrites, if_neg h.1, if_neg h.2]

theorem submit_accepts (hroom : ringFull e.sqTail e.cqHead = false) (h : ValidOpcode req) :
    (eduRingSubmit e req).2.2 = .ok () := by
  obtain ⟨writes, hw⟩ := kickWrites_valid (e := e) h
  simp [eduRingSubmit, hroom, hw]

theorem submit_refuses_opcode (hroom : ringFull e.sqTail e.cqHead = false) (h : ¬ ValidOpcode req) :
    eduRingSubmit e req = (claimSlot e req, [], .error .einval) := by
  simp [eduRingSubmit, hroom, kickWrites_invalid h]

theorem poll_empty (h : e.cqHead = e.cqTail) : eduPollCq e = (e, .error .eagain) := if_pos h

def taken (e : EduDev) : EduDev :=
  { e with cqHead := ringNext e.cqHead, statCqConsumed := e.statCqConsumed + 1 }

def CqEntry.report (c : CqEntry) : EduCompletionReq := ⟨c.tag, c.status, c.result⟩

theorem poll_takes (h : e.cqHead ≠ e.cqTail) :
    eduPollCq e = (taken e, .ok (cqAt e.slab (slotOf e.cqHead)).report) := if_neg h

end

end PcieDriver.Edu
