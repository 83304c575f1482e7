import PcieDriver.Edu.Userspace

/-!
# Zero-copy and plain submit

A zero-copy submit writes the entry into the slot that `sq_tail_` names, before the driver looks
at the request. The two ways agree while that slot is the one that the driver claims next, and is
neither in flight nor behind a full ring.
-/

open Base

namespace PcieDriver.Edu

/-! ## The property and its condition -/

structure SameKernel (e e' : EduDev) : Prop where
  sq : ∀ i < ringSize, sqAt e'.slab i = sqAt e.slab i
  cq : ∀ i < ringSize, cqAt e'.slab i = cqAt e.slab i
  sqTail : e'.sqTail = e.sqTail
  cqTail : e'.cqTail = e.cqTail
  cqHead : e'.cqHead = e.cqHead
  inflight : e'.inflight = e.inflight

/-- A submit as the machine runs it, with interrupts between its start and the driver. -/
def submitCall (zc : Bool) (req : EduSubmitReq) (irqs : List (BitVec 32 × BitVec 32)) :
    List ProcEvent :=
  .call zc req :: (irqs.map (fun p => .kernel (.irq p.1 p.2)) ++ [.enter, .leave])

/-- Both ways to submit `req` lead to the same kernel state and the same outcome, `sq_tail_` names
the slot that the driver claims next, and that slot is not in flight. -/
structure Agree (u : Proc) (req : EduSubmitReq) : Prop where
  kernel : ∀ irqs, SameKernel (run procStep u (submitCall false req irqs)).sys.dev
    (run procStep u (submitCall true req irqs)).sys.dev
  outcome : ∀ irqs, (run procStep u (submitCall true req irqs)).outcome =
    (run procStep u (submitCall false req irqs)).outcome
  slot : slotOf u.handle.sqTail = slotOf u.sys.dev.sqTail
  spares : u.sys.dev.inflight (slotOf u.handle.sqTail) = 0

def entryOf (req : EduSubmitReq) : SqEntry := ⟨req.tag, req.opcode, 0, req.operand, 0⟩

/-- The tails are in step, a full ring already shows this very entry in the next slot, and every
command in flight is among the last 63 claims. -/
structure InStep (u : Proc) (req : EduSubmitReq) : Prop where
  refused : u.refused % ringSize = 0
  full : ringFull u.sys.dev.sqTail u.sys.dev.cqHead = true →
    sqAt u.sys.dev.slab (slotOf u.sys.dev.sqTail) = entryOf req
  oldest : ∀ n, u.sys.InFlight n → u.sys.claimed.length < n + ringSize

/-! ## A slab with one entry written ahead -/

/-- `e'` is `e` but for `entry` in slot `i`, which is not in flight. -/
structure Ahead (i : Fin ringSize) (entry : SqEntry) (e e' : EduDev) : Prop where
  sqTail : e'.sqTail = e.sqTail
  cqTail : e'.cqTail = e.cqTail
  cqHead : e'.cqHead = e.cqHead
  inflight : e'.inflight = e.inflight
  free : e.inflight i = 0
  slot : sqAt e'.slab i = entry
  sq : ∀ j < ringSize, j ≠ i.val → sqAt e'.slab j = sqAt e.slab j
  cq : ∀ j, cqAt e'.slab j = cqAt e.slab j

namespace Ahead

variable {i : Fin ringSize} {entry : SqEntry} {e e' : EduDev}

theorem written (e : EduDev) (h : e.inflight i = 0) :
    Ahead i entry e { e with slab := setSq e.slab i entry } where
  sqTail := rfl
  cqTail := rfl
  cqHead := rfl
  inflight := rfl
  free := h
  slot := sqAt_setSq_same _ _ _
  sq := fun _ _ hne => sqAt_setSq_ne _ (Ne.symm hne) _
  cq := fun _ => cqAt_setSq _ i.isLt _

theorem ne (h : Ahead i entry e e') {j : Fin ringSize} (hj : e.inflight j ≠ 0) : j.val ≠ i.val := by
  intro heq
  obtain rfl : j = i := Fin.ext heq
  exact hj h.free

theorem post (h : Ahead i entry e e') {j : Fin ringSize} (hj : e.inflight j ≠ 0)
    (fact : BitVec 32) : Ahead i entry (postCompletion e j fact) (postCompletion e' j fact) where
  sqTail := h.sqTail
  cqTail := congrArg ringNext h.cqTail
  cqHead := h.cqHead
  inflight := by simp only [postCompletion, h.inflight]
  free := by
    have hne : i ≠ j := fun heq => h.ne hj (congrArg Fin.val heq.symm)
    simp only [postCompletion, Function.update_of_ne hne, h.free]
  slot := by
    rw [postCompletion, sqAt_setCq _ i.isLt]
    exact h.slot
  sq := by
    intro k hk hne
    rw [postCompletion, postCompletion, sqAt_setCq _ hk, sqAt_setCq _ hk]
    exact h.sq k hk hne
  cq := by
    intro k
    have hentry : completionOf e' j fact = completionOf e j fact := by
      rw [completionOf, completionOf, h.sq j j.isLt (h.ne hj)]
    simp only [postCompletion, hentry, h.cqTail]
    by_cases hk : (slotOf e.cqTail).val = k
    · subst hk
      rw [cqAt_setCq_same, cqAt_setCq_same]
    · rw [cqAt_setCq_ne _ hk, cqAt_setCq_ne _ hk, h.cq]

theorem acknowledged (h : Ahead i entry e e') (stat : BitVec 32) :
    Ahead i entry (acknowledged e stat) (acknowledged e' stat) :=
  ⟨h.sqTail, h.cqTail, h.cqHead, h.inflight, h.free, h.slot, h.sq, h.cq⟩

theorem irq (h : Ahead i entry e e') (stat fact : BitVec 32) :
    Ahead i entry (eduIrqHandler e stat fact).1 (eduIrqHandler e' stat fact).1 := by
  by_cases hstat : stat = 0
  · subst hstat
    exact h
  have hscan : firstInflight e' = firstInflight e := by
    rw [firstInflight, firstInflight, h.inflight]
  cases hfirst : firstInflight e with
  | none =>
    rw [irq_idle hstat hfirst, irq_idle hstat (hscan.trans hfirst)]
    exact h.acknowledged stat
  | some j =>
    have hj : e.inflight j ≠ 0 := (firstInflight_some.mp hfirst).1
    rw [irq_posts hstat hfirst, irq_posts hstat (hscan.trans hfirst)]
    exact (h.acknowledged stat).post hj fact

/-- The driver writes the same entry over it, or refuses a full ring that shows it anyway. -/
theorem submit {req : EduSubmitReq} (h : Ahead (slotOf e.sqTail) (entryOf req) e e')
    (hfull : ringFull e.sqTail e.cqHead = true → sqAt e.slab (slotOf e.sqTail) = entryOf req) :
    SameKernel (eduRingSubmit e req).1 (eduRingSubmit e' req).1 ∧
      (eduRingSubmit e' req).2.2 = (eduRingSubmit e req).2.2 := by
  have hsame : ringFull e'.sqTail e'.cqHead = ringFull e.sqTail e.cqHead := by
    rw [h.sqTail, h.cqHead]
  cases hring : ringFull e.sqTail e.cqHead with
  | true =>
    rw [submit_full hring, submit_full (hsame.trans hring)]
    refine ⟨⟨?_, fun k _ => h.cq k, h.sqTail, h.cqTail, h.cqHead, h.inflight⟩, rfl⟩
    intro k hk
    by_cases heq : k = (slotOf e.sqTail).val
    · subst heq
      rw [h.slot, hfull hring]
    · exact h.sq k hk heq
  | false =>
    rw [submit_claims hring, submit_claims (hsame.trans hring)]
    refine ⟨⟨?_, ?_, congrArg ringNext h.sqTail, h.cqTail, h.cqHead, ?_⟩, ?_⟩
    · intro k hk
      simp only [claimSlot, h.sqTail]
      by_cases heq : (slotOf e.sqTail).val = k
      · subst heq
        rw [sqAt_setSq_same, sqAt_setSq_same]
      · rw [sqAt_setSq_ne _ heq, sqAt_setSq_ne _ heq, h.sq k hk (Ne.symm heq)]
    · intro k _
      simp only [claimSlot]
      rw [cqAt_setSq _ (slotOf _).isLt, cqAt_setSq _ (slotOf _).isLt, h.cq]
    · simp only [claimSlot, h.inflight, h.sqTail]
    · by_cases hop : ValidOpcode req
      · rw [submit_accepts hring hop, submit_accepts (hsame.trans hring) hop]
      · rw [submit_refuses_opcode hring hop, submit_refuses_opcode (hsame.trans hring) hop]

end Ahead

/-! ## A submit with interrupts inside -/

def irqEvents (irqs : List (BitVec 32 × BitVec 32)) : List Event :=
  irqs.map fun p => .irq p.1 p.2

theorem step_irq_dev (s : Sys) (stat fact : BitVec 32) :
    (step s (.irq stat fact)).dev = (eduIrqHandler s.dev stat fact).1 := by
  simp only [step, Sys.irqStep]
  split <;> rfl

theorem run_irqs (u : Proc) (irqs : List (BitVec 32 × BitVec 32)) :
    run procStep u (irqs.map fun p => .kernel (.irq p.1 p.2)) =
      { u with sys := run step u.sys (irqEvents irqs) } := by
  induction irqs generalizing u with
  | nil => rfl
  | cons p irqs ih =>
    rw [List.map_cons, run_cons, ih]
    rfl

theorem irqs_keep (s : Sys) (irqs : List (BitVec 32 × BitVec 32)) :
    let s' := run step s (irqEvents irqs)
    s'.dev.sqTail = s.dev.sqTail ∧ s'.dev.cqHead = s.dev.cqHead ∧
      ∀ i < ringSize, sqAt s'.dev.slab i = sqAt s.dev.slab i := by
  induction irqs generalizing s with
  | nil => exact ⟨rfl, rfl, fun _ _ => rfl⟩
  | cons p irqs ih =>
    obtain ⟨htail, hhead, hsq⟩ := ih (step s (.irq p.1 p.2))
    have hone : (step s (.irq p.1 p.2)).dev.sqTail = s.dev.sqTail ∧
        (step s (.irq p.1 p.2)).dev.cqHead = s.dev.cqHead ∧
        ∀ i < ringSize, sqAt (step s (.irq p.1 p.2)).dev.slab i = sqAt s.dev.slab i := by
      generalize hs' : step s (.irq p.1 p.2) = s'
      have heff : Effect s _ s' := hs' ▸ step_effect s (.irq p.1 p.2)
      cases heff with
      | post _ _ j _ _ => exact ⟨rfl, rfl, fun i hi => sqAt_setCq _ hi _⟩
      | payload _ _ _ hbs _ _ _ => simp [payloadOf] at hbs
      | quiet _ _ _ hsame _ hslab => exact ⟨hsame.sqTail, hsame.cqHead, fun i _ => by rw [hslab]⟩
    exact ⟨htail.trans hone.1, hhead.trans hone.2.1, fun i hi => (hsq i hi).trans (hone.2.2 i hi)⟩

theorem Ahead.run {i : Fin ringSize} {entry : SqEntry} {s s' : Sys}
    (h : Ahead i entry s.dev s'.dev) (irqs : List (BitVec 32 × BitVec 32)) :
    Ahead i entry (run step s (irqEvents irqs)).dev (run step s' (irqEvents irqs)).dev := by
  induction irqs generalizing s s' with
  | nil => exact h
  | cons p irqs ih =>
    apply ih
    rw [step_irq_dev, step_irq_dev]
    exact h.irq p.1 p.2

/-- The state in which the driver gets the request. -/
def Proc.handed (u : Proc) (zc : Bool) (req : EduSubmitReq) (irqs : List (BitVec 32 × BitVec 32)) :
    EduDev :=
  (run step (if zc then u.write req else u).sys (irqEvents irqs)).dev

theorem run_submitCall {u : Proc} (hpc : u.pc = .idle) (hmap : u.handle.ringsMapped = true)
    (zc : Bool) (req : EduSubmitReq) (irqs : List (BitVec 32 × BitVec 32)) :
    let u' := run procStep u (submitCall zc req irqs)
    u'.sys.dev = (eduRingSubmit (u.handed zc req irqs) req).1 ∧
      u'.outcome = EduDevice.submitResult (eduRingSubmit (u.handed zc req irqs) req).2.2 := by
  have hcall : procStep u (.call zc req) =
      { (if zc then u.write req else u) with pc := .entering req } := by
    cases zc <;> simp [procStep, Proc.callStep, hpc, hmap]
  simp only [submitCall, run_cons, run_append, hcall, run_irqs]
  simp [procStep, Proc.enterStep, Proc.leaveStep, step_submit_dev, eduIocSubmit, Proc.handed]

/-! ## The condition -/

section
variable {u : Proc} {req : EduSubmitReq}

theorem agree_of_inStep (h : HandleInv u) (hpc : u.pc = .idle)
    (hmap : u.handle.ringsMapped = true) (hin : InStep u req) : Agree u req := by
  have hslot := (h.slot_iff hpc).mpr hin.refused
  have hfree := h.owner.next_free_iff.mpr hin.oldest
  have hwritten : Ahead (slotOf u.sys.dev.sqTail) (entryOf req) u.sys.dev (u.write req).sys.dev := by
    rw [← hslot] at hfree ⊢
    exact .written _ hfree
  have hboth : ∀ irqs, SameKernel (eduRingSubmit (u.handed false req irqs) req).1
        (eduRingSubmit (u.handed true req irqs) req).1 ∧
      (eduRingSubmit (u.handed true req irqs) req).2.2 =
        (eduRingSubmit (u.handed false req irqs) req).2.2 := by
    intro irqs
    have hahead : Ahead _ _ (u.handed false req irqs) (u.handed true req irqs) := hwritten.run irqs
    obtain ⟨htail, hhead, hsq⟩ := irqs_keep u.sys irqs
    have hfull := hin.full
    rw [← htail, ← hhead, ← hsq _ (slotOf _).isLt] at hfull
    rw [← htail] at hahead
    exact hahead.submit hfull
  refine ⟨fun irqs => ?_, fun irqs => ?_, hslot, hslot ▸ hfree⟩
  · rw [(run_submitCall hpc hmap false req irqs).1, (run_submitCall hpc hmap true req irqs).1]
    exact (hboth irqs).1
  · rw [(run_submitCall hpc hmap false req irqs).2, (run_submitCall hpc hmap true req irqs).2,
      (hboth irqs).2]

theorem inStep_of_agree (h : HandleInv u) (hpc : u.pc = .idle)
    (hmap : u.handle.ringsMapped = true) (hagree : Agree u req) : InStep u req where
  refused := (h.slot_iff hpc).mp hagree.slot
  oldest := h.owner.next_free_iff.mp (hagree.slot ▸ hagree.spares)
  full := by
    intro hfull
    have hkernel := hagree.kernel []
    rw [(run_submitCall hpc hmap false req []).1, (run_submitCall hpc hmap true req []).1] at hkernel
    have hplain : u.handed false req [] = u.sys.dev := rfl
    have hzc : u.handed true req [] = u.handle.writeEntry u.sys.dev req := rfl
    have hfull' : ringFull (u.handle.writeEntry u.sys.dev req).sqTail
        (u.handle.writeEntry u.sys.dev req).cqHead = true := hfull
    rw [hplain, hzc, submit_full hfull, submit_full hfull'] at hkernel
    have hsq := hkernel.sq _ (slotOf u.sys.dev.sqTail).isLt
    rw [← hsq, EduDevice.writeEntry, hagree.slot, sqAt_setSq_same]
    rfl

end

/-- **Zero-copy submit agrees with plain submit** exactly while the two are in step. -/
theorem zero_copy_agrees_iff (d : EduDev) (evs : List ProcEvent) (req : EduSubmitReq) :
    let u := run procStep (.opened d) evs
    u.pc = .idle → u.handle.ringsMapped = true → (Agree u req ↔ InStep u req) := by
  intro u hpc hmap
  have h : HandleInv u := HandleInv.reachable d evs
  exact ⟨inStep_of_agree h hpc hmap, agree_of_inStep h hpc hmap⟩

theorem zero_copy_agrees_after_submit :
    let req : EduSubmitReq := ⟨2, eduOpFactorial, 4⟩
    let u := run procStep (.opened freshDev)
      [.mapRings, .call true ⟨1, eduOpFactorial, 5⟩, .enter, .leave, .kernel (.irq 1 120), .poll]
    u.pc = .idle ∧ u.handle.ringsMapped = true ∧ Agree u req := by
  intro req u
  refine ⟨rfl, rfl, (zero_copy_agrees_iff freshDev _ req rfl rfl).mpr ⟨rfl, by decide, ?_⟩⟩
  exact (HandleInv.reachable freshDev _).owner.next_free_iff.mp (by decide)

/-- One request with opcode 0xFF, and the next zero-copy submit writes the slot of a command that
was just refused, while the driver claims the one after it. -/
theorem bad_opcode_moves_tails_apart :
    let u := run procStep (.opened freshDev) [.mapRings, .call false ⟨1, 0xFF, 0⟩, .enter, .leave]
    let u' := run procStep u (submitCall true ⟨2, eduOpFactorial, 5⟩ [])
    ¬ Agree u ⟨2, eduOpFactorial, 5⟩ ∧ u.pc = .idle ∧ u.handle.ringsMapped = true ∧
      u.outcome = .error "bad opcode" ∧ u.sys.dev.inflight (slotOf u.handle.sqTail) = 0xFF ∧
      (sqAt u'.sys.dev.slab 0).tag = 2 ∧ (sqAt u'.sys.dev.slab 1).tag = 2 := by
  intro u u'
  refine ⟨fun h => ?_, rfl, rfl, rfl, by decide, by decide, by decide⟩
  have hslot := h.slot
  exact absurd hslot (by decide)

end PcieDriver.Edu
