import Mathlib.Logic.Function.Basic
import PcieDriver.Hw.Path

/-!
# The driver and the device

A call of the driver holds the mutex from its first effect on the device or the buffer to its store
of `last_status`. The timer of the device and the steps of the interrupt handler may come at any
point between.
-/

open Base
open PcieDriver.Ring (ProtoPcieCommand Ioctl Reply Errno RegWrite cmdLength cmdBytes regCtrl
  regDoorbell regDmaLo regDmaHi regDmaLen ctrlReset ctrlStart statusReady statusDone)
open PcieDriver.Qemu (ProtoPcieState protoPcieRealize protoPcieMmioRead protoPcieMmioWrite
  timerExpires regStatus regIrqAck)

namespace PcieDriver.Hw

/-! ## States -/

/-- Where the call that holds the mutex is. -/
inductive CallPc
  | idle
  /-- It has done `n` of its register writes. -/
  | writing (call : Call) (n : Nat)
  /-- It has read `v` from `REG_STATUS`. -/
  | storing (v : BitVec 32)

inductive HandlerPc
  | idle
  | entered
  | read (v : BitVec 32)
  | stored (v : BitVec 32)

structure Sys where
  core : Core
  dev : ProtoPcieState
  /-- What was last written to each register. -/
  regs : Nat → BitVec 32
  call : CallPc
  handler : HandlerPc
  /-- The command that was started and whose completion was not handled yet. -/
  inFlight : Option ProtoPcieCommand
  /-- No command was started since the handler read `REG_STATUS`. -/
  fresh : Bool
  /-- The handler has stored the DONE of the last command started, and no call began since. -/
  recorded : Bool

/-- After `proto_pci_probe`, with any buffer at any address. -/
def ready (dmaBuf : Mem) (dmaHandle : BitVec 64) : Sys where
  core := ⟨dmaBuf, dmaHandle, 4096, 0⟩
  dev := protoPcieRealize
  regs := fun _ => 0
  call := .idle
  handler := .idle
  inFlight := none
  fresh := false
  recorded := false

def hasDone (status : BitVec 32) : Bool := status &&& statusDone ≠ 0

/-- What `PROTO_PCIE_IOC_GET_STATUS` returns. It waits for the mutex. -/
def Sys.getStatus (s : Sys) : Option (BitVec 32) :=
  match s.call with
  | .idle => some s.core.lastStatus
  | _ => none

/-! ## Steps -/

def Sys.busWrite (s : Sys) (w : RegWrite) : Sys :=
  { s with dev := protoPcieMmioWrite s.dev w, regs := Function.update s.regs w.reg w.value }

/-- What the ghosts make of a write. -/
def Sys.note (s : Sys) (call : Call) (w : RegWrite) : Sys :=
  match call with
  | .send c =>
    if w.reg = regCtrl then { s with inFlight := some c, fresh := false, recorded := false } else s
  | .reset => { s with inFlight := none }

def Sys.callWrite (s : Sys) (call : Call) (n : Nat) (w : RegWrite) : Sys :=
  { (s.busWrite w).note call w with call := .writing call (n + 1) }

/-- A `SEND_CMD` begins with the copy of the payload, and a `RESET` with its first write. -/
def Sys.begin (s : Sys) (call : Call) : Sys :=
  let s := { s with core := s.core.fill call, recorded := false }
  match call with
  | .send _ => { s with call := .writing call 0 }
  | .reset => s.callWrite call 0 ⟨regCtrl, ctrlReset⟩

/-- The next step of the call: one more write, the read of `REG_STATUS` or the store. -/
def Sys.advance (s : Sys) : Sys :=
  match s.call with
  | .idle => s
  | .writing call n =>
    match (s.core.writes call)[n]? with
    | some w => s.callWrite call n w
    | none => { s with call := .storing (protoPcieMmioRead s.dev regStatus) }
  | .storing v => { s with core.lastStatus := v, call := .idle }

inductive Event
  | begin (call : Call)
  | advance
  | expire
  | enter
  | read
  | store
  | ack

/-- The line is level triggered: as long as it is high, the handler is entered again. -/
def step (s : Sys) : Event → Sys
  | .begin call =>
    match s.call with
    | .idle => s.begin call
    | _ => s
  | .advance => s.advance
  | .expire => { s with dev := timerExpires s.dev }
  | .enter =>
    match s.handler with
    | .idle => if s.dev.irq then { s with handler := .entered } else s
    | _ => s
  | .read =>
    match s.handler with
    | .entered =>
      let v := protoPcieMmioRead s.dev regStatus
      { s with
        handler := .read v
        fresh := true
        inFlight := if hasDone v then none else s.inFlight }
    | _ => s
  | .store =>
    match s.handler with
    | .read v =>
      { s with
        core := (protoIrqHandler s.core v).1
        handler := .stored v
        recorded := s.recorded || s.fresh && hasDone v }
    | _ => s
  | .ack =>
    match s.handler with
    | .stored v => { s.busWrite ⟨regIrqAck, v⟩ with handler := .idle }
    | _ => s

/-- Everything that a step can do. -/
inductive Effect (s : Sys) : Event → Sys → Prop
  | skip (e) : Effect s e s
  | begin (call) (hidle : s.call = .idle) : Effect s (.begin call) (s.begin call)
  | advance : Effect s .advance s.advance
  | expire : Effect s .expire { s with dev := timerExpires s.dev }
  | enter (hidle : s.handler = .idle) (hirq : s.dev.irq = true) :
      Effect s .enter { s with handler := .entered }
  | read (hentered : s.handler = .entered) :
      Effect s .read { s with
        handler := .read s.dev.status
        fresh := true
        inFlight := if hasDone s.dev.status then none else s.inFlight }
  | store (v) (hread : s.handler = .read v) :
      Effect s .store { s with
        core := (protoIrqHandler s.core v).1
        handler := .stored v
        recorded := s.recorded || s.fresh && hasDone v }
  | ack (v) (hstored : s.handler = .stored v) :
      Effect s .ack { s.busWrite ⟨regIrqAck, v⟩ with handler := .idle }

theorem step_effect (s : Sys) (e : Event) : Effect s e (step s e) := by
  cases e with
  | begin call =>
    simp only [step]
    split
    · next hidle => exact .begin call hidle
    · exact .skip _
  | advance => exact .advance
  | expire => exact .expire
  | enter =>
    simp only [step]
    split
    · next hidle =>
      split_ifs with hirq
      · exact .enter hidle hirq
      · exact .skip _
    · exact .skip _
  | read =>
    simp only [step]
    split
    · next hentered => exact .read hentered
    · exact .skip _
  | store =>
    simp only [step]
    split
    · next v hread => exact .store v hread
    · exact .skip _
  | ack =>
    simp only [step]
    split
    · next v hstored => exact .ack v hstored
    · exact .skip _

/-! ## A call and the handler, when nothing comes between -/

def Sys.deviceAfter (s : Sys) (call : Call) : ProtoPcieState :=
  (s.core.writes call).foldl protoPcieMmioWrite s.dev

/-- The steps of a call. -/
def callSteps : Call → List Event
  | .send c => .begin (.send c) :: List.replicate 7 .advance
  | .reset => .begin .reset :: List.replicate 3 .advance

/-- **Without interruption a call is the ioctl of any of the three drivers**, which reads the status
that the device has after the writes. -/
theorem call_alone (s : Sys) (call : Call) (hidle : s.call = .idle) :
    let s' := run step s (callSteps call)
    s'.core = s.core.after call (s.deviceAfter call).status ∧ s'.dev = s.deviceAfter call ∧
      s'.call = .idle := by
  obtain ⟨core, dev, regs, pc, handler, inFlight, fresh, recorded⟩ := s
  subst hidle
  cases call with
  | send c => exact ⟨rfl, rfl, rfl⟩
  | reset => exact ⟨rfl, rfl, rfl⟩

/-- The same of a driver that takes the path, with the registers that it writes. -/
theorem ioctl_alone {σ : Type} {hw : σ → Prop} {core : σ → Core}
    {ioctl : σ → BitVec 32 → Ioctl → σ × List RegWrite × Except Errno Reply}
    (hpath : TakesPath hw core ioctl) {d : σ} (hd : hw d) {io : Ioctl} {call : Call}
    (hcall : callOf io = some call) {s : Sys} (hcore : s.core = core d) (hidle : s.call = .idle) :
    let s' := run step s (callSteps call)
    let out := ioctl d s'.dev.status io
    s'.core = core out.1 ∧ s'.dev = out.2.1.foldl protoPcieMmioWrite s.dev := by
  intro s' out
  obtain ⟨hafter, hdev, -⟩ := call_alone s call hidle
  have hout := hpath d s'.dev.status io hd
  have hfields := hout.fields
  have hwrites := hout.writes
  rw [hcall] at hfields hwrites
  refine ⟨?_, ?_⟩
  · rw [hfields, ← hcore]
    exact hafter.trans (congrArg (fun dev => s.core.after call dev.status) hdev.symm)
  · rw [hwrites, ← hcore]
    exact hdev

theorem handler_alone (s : Sys) (hidle : s.handler = .idle) (hirq : s.dev.irq = true) :
    let s' := run step s [.enter, .read, .store, .ack]
    s'.core = (protoIrqHandler s.core s.dev.status).1 ∧
      s'.dev = (protoIrqHandler s.core s.dev.status).2.foldl protoPcieMmioWrite s.dev ∧
      s'.handler = .idle := by
  obtain ⟨core, dev, regs, pc, handler, inFlight, fresh, recorded⟩ := s
  obtain ⟨timer, irq, status, lastOpcode, lastLength, dmaAddr, dmaLen⟩ := dev
  subst hidle hirq
  exact ⟨rfl, rfl, rfl⟩

end PcieDriver.Hw
