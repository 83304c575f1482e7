import PcieDriver.Base.Machine
import PcieDriver.Edu.Ring

/-!
# Userspace writes into the slab

`edu_mmap` gives the slab to userspace, which may write to it at any moment. Here the driver reads
and writes the slab one field at a time, and userspace may change all of it before each access.
-/

open Base

namespace PcieDriver.Edu

/-! ## The driver under such writes -/

/-- What userspace does to the slab before access `k` of an operation. -/
abbrev Meddle := Nat → Mem → Mem

/-- A driver that nobody disturbs. -/
def alone : Meddle := fun _ slab => slab

/-- Writes the fields of the entry at `base` in turn, each with its offset. -/
def writeFields (m : Meddle) (base : Nat) : Nat → Mem → List (Nat × List Byte) → Mem
  | _, slab, [] => slab
  | k, slab, (offset, bytes) :: fields =>
    writeFields m base (k + 1) ((m k slab).put (base + offset) bytes) fields

/-- In the order in which the driver writes them, as below. -/
def SqEntry.fields (s : SqEntry) : List (Nat × List Byte) :=
  [(0, bytesOf 2 s.tag.toNat), (2, [s.opcode]), (3, [s.flags]), (4, bytesOf 4 s.operand.toNat),
    (8, bytesOf 8 s.rsvd.toNat)]

def CqEntry.fields (c : CqEntry) : List (Nat × List Byte) :=
  [(0, bytesOf 2 c.tag.toNat), (2, [c.status]), (4, bytesOf 4 c.result.toNat), (3, [c.flags]),
    (8, bytesOf 8 c.rsvd.toNat)]

/-- `postCompletion`. The handler reads `sq->opcode` up to twice, and only the first time matters. -/
def postCompletionIn (m : Meddle) (e : EduDev) (i : Fin ringSize) (fact : BitVec 32) :
    EduDev × CqEntry :=
  let slab := m 0 e.slab
  let result := if (sqAt slab i).opcode = eduOpFactorial then fact else 0
  let slab := m 2 (m 1 slab)
  let cqe : CqEntry := ⟨(sqAt slab i).tag, 0, 0, result, 0⟩
  ({ e with
    slab := writeFields m (sqSize + 16 * slotOf e.cqTail) 3 slab cqe.fields
    cqTail := ringNext e.cqTail
    inflight := Function.update e.inflight i 0
    statCqPosted := e.statCqPosted + 1
    statEventfdSignals := e.statEventfdSignals + if e.evtCtx.isSome then 1 else 0 }, cqe)

def eduIrqHandlerIn (m : Meddle) (e : EduDev) (irqStat fact : BitVec 32) : EduDev × IrqReport :=
  if irqStat = 0 then ({ e with slab := m 0 e.slab }, ⟨false, [], none, none⟩)
  else
    let ack := MmioWrite.writel irqStat eduRegIrqAck
    let e := { e with lastIrq := irqStat, statIrqTotal := e.statIrqTotal + 1, irqDone := true }
    match firstInflight e with
    | none => ({ e with slab := m 0 e.slab }, ⟨true, [ack], none, none⟩)
    | some i =>
      ((postCompletionIn m e i fact).1,
        ⟨true, [ack], some (i, (postCompletionIn m e i fact).2), e.evtCtx⟩)

def claimSlotIn (m : Meddle) (e : EduDev) (req : EduSubmitReq) : EduDev :=
  let sqe : SqEntry := ⟨req.tag, req.opcode, 0, req.operand, 0⟩
  { e with
    slab := writeFields m (16 * slotOf e.sqTail) 0 e.slab sqe.fields
    inflight := Function.update e.inflight (slotOf e.sqTail) req.opcode
    sqTail := ringNext e.sqTail
    statSqSubmitted := e.statSqSubmitted + 1 }

def eduRingSubmitIn (m : Meddle) (e : EduDev) (req : EduSubmitReq) :
    EduDev × List MmioWrite × Except Errno Unit :=
  if ringFull e.sqTail e.cqHead then ({ e with slab := m 0 e.slab }, [], .error .enospc)
  else
    match kickWrites e req with
    | .ok writes => (claimSlotIn m e req, writes, .ok ())
    | .error err => (claimSlotIn m e req, [], .error err)

def eduPollCqIn (m : Meddle) (e : EduDev) : EduDev × Except Errno EduCompletionReq :=
  if e.cqHead = e.cqTail then ({ e with slab := m 0 e.slab }, .error .eagain)
  else
    let slot := slotOf e.cqHead
    let first := m 0 e.slab
    let second := m 1 first
    let third := m 2 second
    ({ e with slab := third, cqHead := ringNext e.cqHead, statCqConsumed := e.statCqConsumed + 1 },
      .ok ⟨(cqAt first slot).tag, (cqAt second slot).status, (cqAt third slot).result⟩)

def eduOpenIn (m : Meddle) (e : EduDev) : EduDev := eduOpen { e with slab := m 0 e.slab }

/-! ### Alone, it is the driver -/

theorem put_packed (slab : Mem) (a : Nat) (w : BitVec 16) (b c : BitVec 8) (v : BitVec 32)
    (u : BitVec 64) :
    slab.put a (packed w b c v u) =
      ((((slab.put a (bytesOf 2 w.toNat)).put (a + 2) [b]).put (a + 3) [c]).put (a + 4)
        (bytesOf 4 v.toNat)).put (a + 8) (bytesOf 8 u.toNat) := by
  have hpair : [b, c] = [b] ++ [c] := rfl
  rw [packed, hpair, List.append_assoc, ← Mem.put_append, ← Mem.put_append, ← Mem.put_append,
    ← Mem.put_append]
  simp only [bytesOf_length, List.length_singleton, Nat.add_assoc, Nat.reduceAdd]

theorem writeFields_sq (slab : Mem) (i : Nat) (s : SqEntry) :
    writeFields alone (16 * i) 0 slab s.fields = setSq slab i s :=
  (put_packed _ _ _ _ _ _ _).symm

theorem writeFields_cq (slab : Mem) (i k : Nat) (c : CqEntry) :
    writeFields alone (sqSize + 16 * i) k slab c.fields = setCq slab i c := by
  have hswap (m : Mem) (a : Nat) :
      (m.put (a + 4) (bytesOf 4 c.result.toNat)).put (a + 3) [c.flags] =
        (m.put (a + 3) [c.flags]).put (a + 4) (bytesOf 4 c.result.toNat) :=
    Mem.put_comm _ (.inr (by simp))
  rw [setCq, CqEntry.bytes, put_packed, ← hswap]
  rfl

theorem postCompletion_alone (e : EduDev) (i : Fin ringSize) (fact : BitVec 32) :
    postCompletionIn alone e i fact = (postCompletion e i fact, completionOf e i fact) := by
  simp only [postCompletionIn, writeFields_cq]
  rfl

theorem irq_alone (e : EduDev) (irqStat fact : BitVec 32) :
    eduIrqHandlerIn alone e irqStat fact = eduIrqHandler e irqStat fact := by
  simp only [eduIrqHandlerIn, eduIrqHandler, postCompletion_alone]
  rfl

theorem submit_alone (e : EduDev) (req : EduSubmitReq) :
    eduRingSubmitIn alone e req = eduRingSubmit e req := by
  simp only [eduRingSubmitIn, eduRingSubmit, claimSlotIn, writeFields_sq]
  rfl

theorem poll_alone (e : EduDev) : eduPollCqIn alone e = eduPollCq e := rfl

theorem open_alone (e : EduDev) : eduOpenIn alone e = eduOpen e := rfl

/-! ## Runs -/

inductive SlabOp
  | submit (req : EduSubmitReq)
  | irq (irqStat : BitVec 32)
  | poll
  | openFile
  | setEventfd (ctx : Nat)

/-- An operation, what userspace does in its course, and what `REG_FACT` reads if it is read. -/
structure SlabEvent where
  op : SlabOp
  meddle : Meddle
  fact : BitVec 32

/-- What comes of an operation, beside the entries in the slab and the data of a completion. -/
structure Outcome where
  code : Except Errno Unit
  writes : List MmioWrite
  signalled : Option Nat

def perform (e : EduDev) (ev : SlabEvent) : EduDev × Outcome :=
  match ev.op with
  | .submit req =>
    let r := eduRingSubmitIn ev.meddle e req
    (r.1, ⟨r.2.2, r.2.1, none⟩)
  | .irq irqStat =>
    let r := eduIrqHandlerIn ev.meddle e irqStat ev.fact
    (r.1, ⟨.ok (), r.2.writes, r.2.signalled⟩)
  | .poll =>
    let r := eduPollCqIn ev.meddle e
    (r.1, ⟨r.2.map fun _ => (), [], none⟩)
  | .openFile => (eduOpenIn ev.meddle e, ⟨.ok (), [], none⟩)
  | .setEventfd ctx =>
    (eduIocSetEventfd { e with slab := ev.meddle 0 e.slab } ctx, ⟨.ok (), [], none⟩)

def slabStep (e : EduDev) (ev : SlabEvent) : EduDev := (perform e ev).1

/-- All of the structure but the slab. -/
def EduDev.control (e : EduDev) : EduDev := { e with slab := fun _ => 0 }

/-- What comes of an operation, and the control state after it. -/
def observe (e : EduDev) (ev : SlabEvent) : Outcome × EduDev :=
  ((perform e ev).2, (perform e ev).1.control)

structure IndicesBelow (e : EduDev) : Prop where
  sqTail : e.sqTail.toNat < ringSize
  cqTail : e.cqTail.toNat < ringSize
  cqHead : e.cqHead.toNat < ringSize

/-! ## The branches -/

section
variable {m : Meddle} {e : EduDev} {stat fact : BitVec 32} {req : EduSubmitReq} {i : Fin ringSize}

theorem irqIn_idle (hstat : stat ≠ 0) (h : firstInflight e = none) :
    eduIrqHandlerIn m e stat fact =
      ({ acknowledged e stat with slab := m 0 e.slab },
        ⟨true, [.writel stat eduRegIrqAck], none, none⟩) := by
  have h' : firstInflight (acknowledged e stat) = none := h
  simp only [acknowledged] at h'
  simp only [eduIrqHandlerIn, if_neg hstat, h', acknowledged]

theorem irqIn_posts (hstat : stat ≠ 0) (h : firstInflight e = some i) :
    eduIrqHandlerIn m e stat fact =
      ((postCompletionIn m (acknowledged e stat) i fact).1,
        ⟨true, [.writel stat eduRegIrqAck],
          some (i, (postCompletionIn m (acknowledged e stat) i fact).2), e.evtCtx⟩) := by
  have h' : firstInflight (acknowledged e stat) = some i := h
  simp only [acknowledged] at h'
  simp only [eduIrqHandlerIn, if_neg hstat, h', acknowledged]

theorem submitIn_full (h : ringFull e.sqTail e.cqHead = true) :
    eduRingSubmitIn m e req = ({ e with slab := m 0 e.slab }, [], .error .enospc) := by
  simp only [eduRingSubmitIn, h, if_true]

theorem submitIn_claims (h : ringFull e.sqTail e.cqHead = false) :
    eduRingSubmitIn m e req =
      (claimSlotIn m e req, (kickWrites e req).toOption.getD [], (kickWrites e req).map fun _ => ()) := by
  simp only [eduRingSubmitIn, h, Bool.false_eq_true, if_false]
  cases kickWrites e req <;> rfl

theorem pollIn_empty (h : e.cqHead = e.cqTail) :
    eduPollCqIn m e = ({ e with slab := m 0 e.slab }, .error .eagain) := if_pos h

end

/-! ## The slab does not matter -/

section
variable (m : Meddle) (e : EduDev)

theorem irq_control (stat fact : BitVec 32) :
    observe e ⟨.irq stat, m, fact⟩ = observe e.control ⟨.irq stat, alone, 0⟩ := by
  have hobserve (d : EduDev) (m : Meddle) (fact : BitVec 32) :
      observe d ⟨.irq stat, m, fact⟩ =
        (⟨.ok (), (eduIrqHandlerIn m d stat fact).2.writes, (eduIrqHandlerIn m d stat fact).2.signalled⟩,
          (eduIrqHandlerIn m d stat fact).1.control) := rfl
  rw [hobserve, hobserve]
  by_cases hstat : stat = 0
  · subst hstat
    rfl
  · have hsame : firstInflight e.control = firstInflight e := rfl
    cases hfirst : firstInflight e with
    | none =>
      rw [irqIn_idle hstat hfirst, irqIn_idle hstat (hsame.trans hfirst)]
      rfl
    | some i =>
      rw [irqIn_posts hstat hfirst, irqIn_posts hstat (hsame.trans hfirst)]
      rfl

theorem submit_control (req : EduSubmitReq) (fact : BitVec 32) :
    observe e ⟨.submit req, m, fact⟩ = observe e.control ⟨.submit req, alone, 0⟩ := by
  have hobserve (d : EduDev) (m : Meddle) (fact : BitVec 32) :
      observe d ⟨.submit req, m, fact⟩ =
        (⟨(eduRingSubmitIn m d req).2.2, (eduRingSubmitIn m d req).2.1, none⟩,
          (eduRingSubmitIn m d req).1.control) := rfl
  have hsame : ringFull e.control.sqTail e.control.cqHead = ringFull e.sqTail e.cqHead := rfl
  rw [hobserve, hobserve]
  cases hfull : ringFull e.sqTail e.cqHead with
  | true =>
    rw [submitIn_full hfull, submitIn_full (hsame.trans hfull)]
    rfl
  | false =>
    rw [submitIn_claims hfull, submitIn_claims (hsame.trans hfull)]
    rfl

theorem poll_control (fact : BitVec 32) :
    observe e ⟨.poll, m, fact⟩ = observe e.control ⟨.poll, alone, 0⟩ := by
  have hobserve (d : EduDev) (m : Meddle) (fact : BitVec 32) :
      observe d ⟨.poll, m, fact⟩ =
        (⟨(eduPollCqIn m d).2.map fun _ => (), [], none⟩, (eduPollCqIn m d).1.control) := rfl
  rw [hobserve, hobserve]
  by_cases hempty : e.cqHead = e.cqTail
  · have hempty' : e.control.cqHead = e.control.cqTail := hempty
    rw [pollIn_empty hempty, pollIn_empty hempty']
    rfl
  · have hempty' : e.control.cqHead ≠ e.control.cqTail := hempty
    simp only [eduPollCqIn, if_neg hempty, if_neg hempty']
    rfl

/-- **One step of the argument**: an operation that userspace meddles with does to the control state
what it does, undisturbed, with a slab of zeros. -/
theorem observe_control (ev : SlabEvent) : observe e ev = observe e.control ⟨ev.op, alone, 0⟩ := by
  obtain ⟨op, m, fact⟩ := ev
  cases op with
  | submit req => exact submit_control m e req fact
  | irq stat => exact irq_control m e stat fact
  | poll => exact poll_control m e fact
  | openFile => rfl
  | setEventfd ctx => rfl

end

theorem ringNext_below (idx : BitVec 32) : (ringNext idx).toNat < ringSize := by
  rw [toNat_ringNext]
  exact Nat.mod_lt _ (by decide)

theorem zero_below : (0 : BitVec 32).toNat < ringSize := by decide

section
variable {e : EduDev} (h : IndicesBelow e) (m : Meddle)
include h

theorem IndicesBelow.submit (req : EduSubmitReq) : IndicesBelow (eduRingSubmitIn m e req).1 := by
  cases hfull : ringFull e.sqTail e.cqHead with
  | true =>
    rw [submitIn_full hfull]
    exact ⟨h.sqTail, h.cqTail, h.cqHead⟩
  | false =>
    rw [submitIn_claims hfull]
    exact ⟨ringNext_below _, h.cqTail, h.cqHead⟩

theorem IndicesBelow.irq (stat fact : BitVec 32) :
    IndicesBelow (eduIrqHandlerIn m e stat fact).1 := by
  by_cases hstat : stat = 0
  · subst hstat
    exact ⟨h.sqTail, h.cqTail, h.cqHead⟩
  · cases hfirst : firstInflight e with
    | none =>
      rw [irqIn_idle hstat hfirst]
      exact ⟨h.sqTail, h.cqTail, h.cqHead⟩
    | some i =>
      rw [irqIn_posts hstat hfirst]
      exact ⟨h.sqTail, ringNext_below _, h.cqHead⟩

theorem IndicesBelow.poll : IndicesBelow (eduPollCqIn m e).1 := by
  unfold eduPollCqIn
  split_ifs
  · exact ⟨h.sqTail, h.cqTail, h.cqHead⟩
  · exact ⟨h.sqTail, h.cqTail, ringNext_below _⟩

end

theorem IndicesBelow.step {e : EduDev} (h : IndicesBelow e) (ev : SlabEvent) :
    IndicesBelow (slabStep e ev) := by
  obtain ⟨op, m, fact⟩ := ev
  cases op with
  | submit req => exact h.submit m req
  | irq stat => exact h.irq m stat fact
  | poll => exact h.poll m
  | openFile => exact ⟨zero_below, zero_below, zero_below⟩
  | setEventfd ctx => exact ⟨h.sqTail, h.cqTail, h.cqHead⟩

/-- **Userspace cannot steer the driver through the slab**: two runs of the same operations look the
same but for the entries, whatever userspace writes in between, and the indices stay in the ring. -/
theorem slab_cannot_steer (slab slab' : Mem) (dmaHandle : BitVec 64) (es es' : List SlabEvent)
    (h : es.map SlabEvent.op = es'.map SlabEvent.op) :
    trace slabStep observe (eduProbe slab dmaHandle) es =
        trace slabStep observe (eduProbe slab' dmaHandle) es' ∧
      Always slabStep IndicesBelow (eduProbe slab dmaHandle) es := by
  constructor
  · refine trace_congr (R := fun e e' => e.control = e'.control) (fun e e' ev ev' hcontrol hop => ?_)
      rfl h
    have hsame : observe e ev = observe e' ev' := by
      rw [observe_control, hcontrol, hop, ← observe_control]
    exact ⟨congrArg Prod.snd hsame, hsame⟩
  · exact Always.of_inv (fun _ ev hbelow => hbelow.step ev) ⟨zero_below, zero_below, zero_below⟩

/-- Userspace fills the slab with ones while the handler is at work. -/
theorem slab_cannot_steer_ones :
    trace slabStep observe (eduProbe (fun _ => 0) 0x1000)
        [⟨.submit ⟨7, eduOpFactorial, 5⟩, alone, 0⟩, ⟨.irq 1, alone, 120⟩] =
      trace slabStep observe (eduProbe (fun _ => 0) 0x1000)
        [⟨.submit ⟨7, eduOpFactorial, 5⟩, alone, 0⟩, ⟨.irq 1, fun _ _ _ => 0xff, 120⟩] :=
  (slab_cannot_steer (fun _ => 0) (fun _ => 0) 0x1000
    [⟨.submit ⟨7, eduOpFactorial, 5⟩, alone, 0⟩, ⟨.irq 1, alone, 120⟩]
    [⟨.submit ⟨7, eduOpFactorial, 5⟩, alone, 0⟩, ⟨.irq 1, fun _ _ _ => 0xff, 120⟩] rfl).1

end PcieDriver.Edu
