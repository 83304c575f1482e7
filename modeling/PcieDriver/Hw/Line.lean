import PcieDriver.Hw.System
import PcieDriver.Qemu.Bus

/-!
# The level of the interrupt line

The handler acknowledges what it has read in `REG_IRQ_ACK`. The device has the register and ignores
it, so the line stays high until a reset.
-/

open Base
open PcieDriver.Ring (RegWrite regCtrl ctrlStart)
open PcieDriver.Qemu (ProtoPcieState BusEvent busStep protoPcieRealize protoPcieMmioRead
  protoPcieMmioWrite timerExpires regStatus regIrqAck resets write_effect expire_effect)

namespace PcieDriver.Hw

/-! ## The handler between register writes -/

structure Line where
  dev : ProtoPcieState
  core : Core
  /-- What the handler has read and not acknowledged yet. -/
  seen : Option (BitVec 32)
  /-- A command was completed, and neither `REG_IRQ_ACK` nor a reset was written since. -/
  outstanding : Bool

inductive LineEvent
  | bus (e : BusEvent)
  | read
  | ack

def lineReady (core : Core) : Line := ⟨protoPcieRealize, core, none, false⟩

namespace Line

def write (s : Line) (w : RegWrite) : Line :=
  { s with
    dev := protoPcieMmioWrite s.dev w
    outstanding := s.outstanding && !(w.reg = regIrqAck || resets w) }

def step (s : Line) : LineEvent → Line
  | .bus (.write w) => s.write w
  | .bus .expire =>
    { s with dev := timerExpires s.dev, outstanding := s.outstanding || s.dev.timer }
  | .read =>
    match s.seen with
    | none => { s with seen := some (protoPcieMmioRead s.dev regStatus) }
    | some _ => s
  | .ack =>
    match s.seen with
    | none => s
    | some v =>
      { (protoIrqHandler s.core v).2.foldl write s with
        core := (protoIrqHandler s.core v).1
        seen := none }

/-- The line is high exactly while a completion is outstanding. -/
def Level (s : Line) : Prop := s.dev.irq = s.outstanding

/-- The event writes `REG_IRQ_ACK`. -/
def acks (s : Line) : LineEvent → Bool
  | .bus (.write w) => w.reg = regIrqAck
  | .bus .expire => false
  | .read => false
  | .ack => s.seen.isSome

/-- An acknowledgment comes only when there is nothing to acknowledge. -/
def NothingToAck (s : Line) (e : LineEvent) : Prop := s.acks e = true → s.outstanding = false

variable {s : Line}

/-- A write leaves the level right unless it acknowledges a completion, which only the ghost notes. -/
theorem write_level (h : s.Level) (w : RegWrite) :
    (s.write w).Level ↔ (w.reg = regIrqAck → s.outstanding = false) := by
  obtain ⟨-, hirq, -⟩ := write_effect s.dev w
  rw [Level] at h
  rw [Level, write, hirq, h]
  by_cases hack : w.reg = regIrqAck
  · have hreset : resets w = false := by
      rw [resets, hack]
      rfl
    cases hout : s.outstanding <;> simp [hack, hreset]
  · simp [hack]

theorem ack_step {v : BitVec 32} (hseen : s.seen = some v) :
    s.step .ack = { s.write ⟨regIrqAck, v⟩ with
      core := { s.core with lastStatus := v }
      seen := none } := by
  simp only [step, hseen]
  rfl

theorem level_step (h : s.Level) (e : LineEvent) : (s.step e).Level ↔ s.NothingToAck e := by
  cases e with
  | bus e =>
    cases e with
    | write w =>
      rw [NothingToAck, acks, decide_eq_true_eq]
      exact write_level h w
    | expire =>
      obtain ⟨-, hirq, -⟩ := expire_effect s.dev
      rw [Level] at h
      simp [Level, step, NothingToAck, acks, hirq, h]
  | read =>
    cases hseen : s.seen <;> simpa [Level, step, NothingToAck, acks, hseen] using h
  | ack =>
    cases hseen : s.seen with
    | none => simpa [Level, step, NothingToAck, acks, hseen] using h
    | some v =>
      rw [ack_step hseen, NothingToAck, acks, hseen]
      exact (write_level h ⟨regIrqAck, v⟩).trans (imp_congr_left (by simp))

end Line

/-- **The line tells what is outstanding if and only if nothing outstanding is ever acknowledged.** -/
theorem line_level_iff (core : Core) (es : List LineEvent) :
    Always Line.step Line.Level (lineReady core) es ↔
      Along Line.step Line.NothingToAck (lineReady core) es := by
  have h0 : (lineReady core).Level := rfl
  rw [always_iff_along, and_iff_right h0]
  exact along_iff (fun s e h => Line.level_step h e) (fun s e _ hnext => hnext) h0

/-- One command is completed, and the handler reads the status and acknowledges it. -/
theorem line_stays_high :
    let es : List LineEvent :=
      [.bus (.write ⟨regCtrl, ctrlStart⟩), .bus .expire, .read, .ack]
    let s := run Line.step (lineReady ⟨Mem.zero, 0, 4096, 0⟩) es
    ¬ Always Line.step Line.Level (lineReady ⟨Mem.zero, 0, 4096, 0⟩) es ∧
      s.dev.irq = true ∧ s.outstanding = false := by
  intro es s
  refine ⟨?_, rfl, rfl⟩
  intro h
  have hlast : s.dev.irq = s.outstanding := h.last
  exact absurd hlast (by decide)

/-! ## The calls and the handler of the driver -/

/-- What the handler holds between its read and its acknowledgment. -/
def HandlerPc.seen : HandlerPc → Option (BitVec 32)
  | .idle | .entered => none
  | .read v | .stored v => some v

/-- The register write that an event of the system makes for a call. -/
def Sys.written (s : Sys) : Event → Option RegWrite
  | .begin .reset =>
    match s.call with
    | .idle => some ⟨regCtrl, Ring.ctrlReset⟩
    | _ => none
  | .advance =>
    match s.call with
    | .writing call n => (s.core.writes call)[n]?
    | _ => none
  | _ => none

/-- What an event of the system is to the line. -/
def Sys.onLine (s : Sys) (e : Event) : List LineEvent :=
  match e, s.handler with
  | .expire, _ => [.bus .expire]
  | .read, .entered => [.read]
  | .ack, .stored _ => [.ack]
  | e, _ => (s.written e).toList.map fun w => .bus (.write w)

structure Matches (s : Sys) (l : Line) : Prop where
  dev : l.dev = s.dev
  seen : l.seen = s.handler.seen

theorem Matches.callWrite {s : Sys} {l : Line} (h : Matches s l) (call : Call) (n : Nat)
    (w : RegWrite) : Matches (s.callWrite call n w) (l.write w) := by
  have hnote : ∀ s' : Sys, (s'.note call w).dev = s'.dev ∧ (s'.note call w).handler = s'.handler := by
    intro s'
    unfold Sys.note
    split
    · split_ifs <;> exact ⟨rfl, rfl⟩
    · exact ⟨rfl, rfl⟩
  obtain ⟨hdev, hhandler⟩ := hnote (s.busWrite w)
  constructor
  · show protoPcieMmioWrite l.dev w = ((s.busWrite w).note call w).dev
    rw [hdev, h.dev]
    rfl
  · show l.seen = ((s.busWrite w).note call w).handler.seen
    rw [hhandler]
    exact h.seen

theorem step_onLine (s : Sys) (l : Line) (e : Event) (h : Matches s l) :
    Matches (step s e) (run Line.step l (s.onLine e)) := by
  cases e with
  | begin call =>
    cases hcall : s.call with
    | idle =>
      cases call with
      | send c => simpa [Sys.onLine, Sys.written, step, hcall, Sys.begin] using ⟨h.dev, h.seen⟩
      | reset =>
        have hfill : Matches { s with core := s.core.fill .reset, recorded := false } l :=
          ⟨h.dev, h.seen⟩
        simp only [Sys.onLine, Sys.written, step, hcall, Sys.begin]
        exact hfill.callWrite .reset 0 _
    | writing | storing =>
      cases call <;> simpa [Sys.onLine, Sys.written, step, hcall] using h
  | advance =>
    cases hcall : s.call with
    | idle => simpa [Sys.onLine, Sys.written, step, Sys.advance, hcall] using h
    | storing v =>
      simpa [Sys.onLine, Sys.written, step, Sys.advance, hcall] using ⟨h.dev, h.seen⟩
    | writing call n =>
      cases hw : (s.core.writes call)[n]? with
      | none =>
        simpa [Sys.onLine, Sys.written, step, Sys.advance, hcall, hw] using ⟨h.dev, h.seen⟩
      | some w =>
        simp only [Sys.onLine, Sys.written, step, Sys.advance, hcall, hw]
        exact h.callWrite call n w
  | expire =>
    refine ⟨?_, h.seen⟩
    show timerExpires l.dev = timerExpires s.dev
    rw [h.dev]
  | enter =>
    have hseen := h.seen
    cases hhandler : s.handler with
    | idle =>
      rw [hhandler] at hseen
      simp only [Sys.onLine, Sys.written, step, hhandler]
      split_ifs
      · exact ⟨h.dev, hseen⟩
      · exact h
    | entered | read | stored => simpa [Sys.onLine, Sys.written, step, hhandler] using h
  | read =>
    cases hhandler : s.handler with
    | entered =>
      have hseen : l.seen = none := h.seen.trans (congrArg HandlerPc.seen hhandler)
      simp only [Sys.onLine, step, hhandler, run_cons, run_nil, Line.step, hseen]
      exact ⟨h.dev, congrArg (fun dev => some (protoPcieMmioRead dev regStatus)) h.dev⟩
    | idle | read | stored => simpa [Sys.onLine, Sys.written, step, hhandler] using h
  | store =>
    cases hhandler : s.handler with
    | read v =>
      have hseen : l.seen = some v := h.seen.trans (congrArg HandlerPc.seen hhandler)
      simp only [Sys.onLine, Sys.written, step, hhandler]
      exact ⟨h.dev, hseen⟩
    | idle | entered | stored => simpa [Sys.onLine, Sys.written, step, hhandler] using h
  | ack =>
    cases hhandler : s.handler with
    | stored v =>
      have hseen : l.seen = some v := h.seen.trans (congrArg HandlerPc.seen hhandler)
      simp only [Sys.onLine, step, hhandler, run_cons, run_nil, Line.ack_step hseen]
      exact ⟨congrArg (protoPcieMmioWrite · ⟨regIrqAck, v⟩) h.dev, rfl⟩
    | idle | entered | read => simpa [Sys.onLine, Sys.written, step, hhandler] using h

/-- **The runs of the driver are among those of the line**: its calls, its handler and the timer do to
the device what the events that they amount to do. -/
theorem run_onLine (dmaBuf : Mem) (dmaHandle : BitVec 64) (es : List Event) :
    let s := ready dmaBuf dmaHandle
    Matches (run step s es) (run (run Line.step) (lineReady s.core) (trace step Sys.onLine s es)) :=
  run_simulates (R := Matches) step_onLine ⟨rfl, rfl⟩ es

end PcieDriver.Hw
