import PcieDriver.Base.Machine
import PcieDriver.Hw.Path
import PcieDriver.Wire.Ioctl

/-!
# Three drivers on one device

In hardware mode a process cannot tell the basic driver from the sim driver, and it can tell the ring
driver from them only by the two requests that are in no other header.
-/

open Base
open PcieDriver.Ring (ProtoPcieCommand Ioctl Reply Errno RegWrite PciResources replied)
open PcieDriver.Hw (Core callOf simCore ringCore basicCore)

namespace PcieDriver.Wire

/-! ## What a driver is, on hardware -/

/-- All that shows of a driver that has no rings. -/
structure View where
  bar0Len : BitVec 32
  irq : BitVec 32
  core : Core

/-- The ioctls of the basic header on that much of a driver. -/
def View.ioctl (v : View) (status : BitVec 32) :
    Ioctl → View × List RegWrite × Except Errno Reply
  | .getInfo copied => (v, [], replied copied (.info ⟨v.bar0Len, v.irq, 64, 64⟩))
  | .reset => ({ v with core := v.core.after .reset status }, v.core.writes .reset, .ok .done)
  | .sendCmd copied c =>
    if copied then
      ({ v with core := v.core.after (.send c) status }, v.core.writes (.send c), .ok .done)
    else (v, [], .error .efault)
  | .getStatus copied => (v, [], replied copied (.status v.core.lastStatus))
  | .processPending | .getRingState _ | .other => (v, [], .error .enotty)

/-- `proto_irq_handler`. -/
def View.irqHandler (v : View) (status : BitVec 32) : View × List RegWrite :=
  ({ v with core := (Hw.protoIrqHandler v.core status).1 }, (Hw.protoIrqHandler v.core status).2)

def viewDriver : Driver where
  Dev := View
  header := basicHeader
  ioctl := View.ioctl
  known := basicHeader_known
  other _ _ := rfl
  uncopied _ _ _ := rfl
  getInfo v _ := ⟨v, .inl ⟨_, fun _ => rfl⟩⟩
  getStatus v _ := ⟨v, .inl ⟨_, fun _ => rfl⟩⟩
  getRingState v _ := ⟨v, .inr ⟨.enotty, fun _ => rfl⟩⟩
  reset _ _ := noAnswer_done _ _
  sendCmd _ _ _ := noAnswer_done _ _
  processPending _ _ := noAnswer_error _ _ _

/-- The two ioctls that only the ring driver has. -/
def RingIoctl : Ioctl → Prop
  | .processPending => True
  | .getRingState _ => True
  | _ => False

/-- A driver that shows `view`, as long as `hw` holds. -/
structure Shows (D : Driver) (hw : D.Dev → Prop) (view : D.Dev → View) : Prop where
  mode : ∀ d status io, hw d → hw (D.ioctl d status io).1
  ioctl : ∀ d status io, hw d → ¬ RingIoctl io →
    (D.ioctl d status io).map view id = (view d).ioctl status io

/-! ## The three drivers -/

def basicView (d : Basic.ProtoPcieDev) : View := ⟨d.bar0Len.setWidth 32, d.irq, basicCore d⟩
def simView (d : Sim.ProtoPcieDev) : View := ⟨d.bar0Len.setWidth 32, d.irq, simCore d⟩
def ringView (d : Ring.ProtoPcieDev) : View := ⟨d.bar0Len.setWidth 32, d.irq, ringCore d⟩

/-- Hardware mode of the ring driver, with what the probe has put down about rings. -/
def RingHw (d : Ring.ProtoPcieDev) : Prop :=
  d.simulated = false ∧ d.ringEntries = 64 ∧ d.ringEntrySize = 64

theorem basic_shows : Shows basicDriver (fun _ => True) basicView where
  mode _ _ _ _ := trivial
  ioctl d status io _ hio := by
    cases io with
    | sendCmd copied c =>
      cases copied with
      | true => exact congrArg (Prod.map basicView id) (Hw.basic_send d status c)
      | false => rfl
    | getInfo | reset | processPending | getStatus | getRingState | other => rfl

theorem sim_shows : Shows simDriver (fun d => d.simulated = false) simView where
  mode d status io h := (Hw.sim_path d status io h).mode
  ioctl d status io h hio := by
    cases io with
    | sendCmd copied c =>
      cases copied with
      | true => exact congrArg (Prod.map simView id) (Hw.sim_send h status c)
      | false => rfl
    | reset => exact congrArg (Prod.map simView id) (Hw.sim_reset h status)
    | getInfo | processPending | getStatus | getRingState | other => rfl

theorem ring_mode {d : Ring.ProtoPcieDev} (h : RingHw d) (status : BitVec 32) (io : Ioctl) :
    RingHw (Ring.protoIoctl d status io).1 := by
  cases io with
  | sendCmd copied c =>
    cases copied with
    | true =>
      rw [Hw.ring_send h.1]
      exact h
    | false => exact h
  | reset =>
    rw [Hw.ring_reset h.1]
    exact h
  | processPending =>
    rw [Hw.ring_process h.1]
    exact h
  | getRingState copied =>
    rw [Hw.ring_state h.1]
    exact h
  | getInfo | getStatus | other => exact h

theorem ring_shows : Shows ringDriver RingHw ringView where
  mode d status io h := ring_mode h status io
  ioctl d status io h hio := by
    obtain ⟨h, hentries, hsize⟩ := h
    cases io with
    | sendCmd copied c =>
      cases copied with
      | true => exact congrArg (Prod.map ringView id) (Hw.ring_send h status c)
      | false => rfl
    | reset => exact congrArg (Prod.map ringView id) (Hw.ring_reset h status)
    | processPending | getRingState => exact absurd trivial hio
    | getInfo copied =>
      show (ringView d, [], replied copied (.info ⟨_, _, d.ringEntries, d.ringEntrySize⟩)) = _
      rw [hentries, hsize]
      rfl
    | getStatus | other => rfl

/-! ## Calls -/

/-- What the process and the device see of an event. -/
inductive Seen
  | call (writes : List RegWrite) (user : UserMem) (ret : Except Errno Unit)
  | interrupt (writes : List RegWrite)

def Outcome.seen {σ : Type} (o : Outcome σ) : Seen := .call o.writes o.user o.ret

/-- A number that only the ring driver's header defines. -/
def RingWord (cmd : BitVec 32) : Prop :=
  ∃ c, (ringHeader .processPending = some c ∨ ringHeader .getRingState = some c) ∧ cmd = c.word

/-- The outcome of a call on a driver, and on what shows of it. -/
structure Outcome.Shows {σ : Type} (o : Outcome σ) (hw : σ → Prop) (view : σ → View)
    (o' : Outcome View) : Prop where
  mode : hw o.dev
  dev : view o.dev = o'.dev
  seen : o.seen = o'.seen

theorem deliver_shows {σ : Type} {hw : σ → Prop} (view : σ → View)
    {out : σ × List RegWrite × Except Errno Reply} (hmode : hw out.1) (u : UserMem) (arg : Nat) :
    (deliver u arg out).Shows hw view (deliver u arg (out.map view id)) := by
  obtain ⟨d, ws, ret⟩ := out
  cases ret <;> exact ⟨hmode, rfl, rfl⟩

theorem decode_some {h : Header} {cmd : BitVec 32} {r : Request} (hr : h.decode cmd = some r) :
    (h r).map Ioc.word = some cmd := by
  unfold Header.decode at hr
  split_ifs at hr
  simpa using List.find?_some hr

theorem ring_decode {cmd : BitVec 32} (h : ¬ RingWord cmd) :
    ringHeader.decode cmd = basicHeader.decode cmd := by
  have hsame (r : Request) : (ringHeader r).map Ioc.word = some cmd ↔
      (basicHeader r).map Ioc.word = some cmd := by
    cases r with
    | processPending | getRingState =>
      refine iff_of_false (fun hr => ?_) (by simp [basicHeader])
      obtain ⟨c, hc, hword⟩ := Option.map_eq_some_iff.mp hr
      first
        | exact h ⟨c, .inl hc, hword.symm⟩
        | exact h ⟨c, .inr hc, hword.symm⟩
    | getInfo | reset | sendCmd | getStatus | waitCompletion => rfl
  simp only [Header.decode, hsame]

/-- A call that the headers agree on shows the same. -/
theorem Shows.call {D : Driver} {hw : D.Dev → Prop} {view : D.Dev → View} (h : Shows D hw view)
    {d : D.Dev} (hd : hw d) (status : BitVec 32) {cmd : BitVec 32}
    (hdecode : D.header.decode cmd = basicHeader.decode cmd) (arg : Nat) (u : UserMem) :
    (D.call d status cmd arg u).Shows hw view (viewDriver.call (view d) status cmd arg u) := by
  have hdeliver (io : Ioctl) (hio : ¬ RingIoctl io) :
      (deliver u arg (D.ioctl d status io)).Shows hw view
        (deliver u arg ((view d).ioctl status io)) := by
    rw [← h.ioctl d status io hd hio]
    exact deliver_shows view (h.mode d status io hd) u arg
  have hheader : viewDriver.header.decode cmd = basicHeader.decode cmd := rfl
  unfold Driver.call
  rw [hdecode, hheader]
  cases hr : basicHeader.decode cmd with
  | none => exact ⟨hd, rfl, rfl⟩
  | some r =>
    cases r with
    | getInfo => exact hdeliver (.getInfo true) id
    | reset => exact hdeliver .reset id
    | getStatus => exact hdeliver (.getStatus true) id
    | sendCmd =>
      cases copyFromUser u arg command.size with
      | none => exact ⟨hd, rfl, rfl⟩
      | some bs => exact hdeliver (.sendCmd true (command.dec bs)) id
    | processPending => exact absurd (decode_some hr) (by simp [basicHeader])
    | getRingState => exact absurd (decode_some hr) (by simp [basicHeader])
    | waitCompletion => exact ⟨hd, rfl, rfl⟩

theorem ring_call_differs {d : Ring.ProtoPcieDev} (hd : RingHw d) (v : View) (status : BitVec 32)
    {cmd : BitVec 32} (hword : RingWord cmd) (arg : Nat) (u : UserMem) :
    (ringDriver.call d status cmd arg u).seen ≠ (viewDriver.call v status cmd arg u).seen := by
  obtain ⟨c, hc, rfl⟩ := hword
  -- In the basic header the number means nothing.
  have hnone {r : Request} (hr : ringHeader r = some c) (hbasic : basicHeader r = none) :
      (viewDriver.call v status c.word arg u).ret = .error .enotty := by
    have hdecode : viewDriver.header.decode c.word = none := by
      rw [decode_word ringDriver.known viewDriver.known hr]
      exact if_neg (by rw [show viewDriver.header = basicHeader from rfl, hbasic]; simp)
    simp only [Driver.call, hdecode]
  have hsome {r : Request} (hr : ringHeader r = some c) :
      ringDriver.header.decode c.word = some r := by
    rw [decode_word ringDriver.known ringDriver.known hr]
    exact if_pos hr
  intro hseen
  have hret := (Seen.call.inj hseen).2.2
  rcases hc with hc | hc
  · have hprocess : ringDriver.ioctl d status .processPending = (d, [], .ok .done) :=
      Hw.ring_process hd.1 status
    rw [hnone hc rfl] at hret
    simp only [Driver.call, hsome hc, hprocess] at hret
    cases hret
  · have hstate : ringDriver.ioctl d status (.getRingState true) = (d, [], .error .enotsupp) :=
      Hw.ring_state hd.1 status true
    rw [hnone hc rfl] at hret
    simp only [Driver.call, hsome hc, hstate] at hret
    cases hret

/-! ## Runs -/

/-- What comes to a driver. The device may have any status whenever it is read. -/
inductive Event
  | call (status cmd : BitVec 32) (arg : Nat) (u : UserMem)
  | interrupt (status : BitVec 32)

/-- The number of a call is not one of the ring driver's own. -/
def Event.Common : Event → Prop
  | .call _ cmd _ _ => ¬ RingWord cmd
  | .interrupt _ => True

/-- A driver with its handler. -/
structure Machine where
  driver : Driver
  irqHandler : driver.Dev → BitVec 32 → driver.Dev × List RegWrite

namespace Machine

variable (M : Machine)

def step (d : M.driver.Dev) : Event → M.driver.Dev
  | .call status cmd arg u => (M.driver.call d status cmd arg u).dev
  | .interrupt status => (M.irqHandler d status).1

def sight (d : M.driver.Dev) : Event → Seen
  | .call status cmd arg u => (M.driver.call d status cmd arg u).seen
  | .interrupt status => .interrupt (M.irqHandler d status).2

/-- All that is seen from `d` on. -/
def sights (d : M.driver.Dev) (es : List Event) : List Seen := trace M.step M.sight d es

end Machine

def viewMachine : Machine := ⟨viewDriver, View.irqHandler⟩

def basicMachine : Machine where
  driver := basicDriver
  irqHandler (d : Basic.ProtoPcieDev) status :=
    ({ d with lastStatus := status }, [⟨Qemu.regIrqAck, status⟩])

def simMachine : Machine where
  driver := simDriver
  irqHandler (d : Sim.ProtoPcieDev) status :=
    ({ d with lastStatus := status }, [⟨Qemu.regIrqAck, status⟩])

def ringMachine : Machine where
  driver := ringDriver
  irqHandler (d : Ring.ProtoPcieDev) status :=
    ({ d with lastStatus := status }, [⟨Qemu.regIrqAck, status⟩])

/-- The handler shows the same as well. -/
structure Machine.Shows (M : Machine) (hw : M.driver.Dev → Prop) (view : M.driver.Dev → View) :
    Prop where
  driver : Wire.Shows M.driver hw view
  mode : ∀ d status, hw d → hw (M.irqHandler d status).1
  irqHandler : ∀ d status, (M.irqHandler d status).map view id = (view d).irqHandler status

theorem Machine.Shows.step {M : Machine} {hw : M.driver.Dev → Prop} {view : M.driver.Dev → View}
    (h : M.Shows hw view) {d : M.driver.Dev} (hd : hw d) (e : Event)
    (hdecode : ∀ status cmd arg u, e = .call status cmd arg u →
      M.driver.header.decode cmd = basicHeader.decode cmd) :
    (hw (M.step d e) ∧ view (M.step d e) = viewMachine.step (view d) e) ∧
      M.sight d e = viewMachine.sight (view d) e := by
  cases e with
  | call status cmd arg u =>
    have hcall := h.driver.call hd status (hdecode status cmd arg u rfl) arg u
    exact ⟨⟨hcall.mode, hcall.dev⟩, hcall.seen⟩
  | interrupt status =>
    have hirq := h.irqHandler d status
    have hwrites : (M.irqHandler d status).2 = ((view d).irqHandler status).2 :=
      congrArg Prod.snd hirq
    exact ⟨⟨h.mode d status hd, congrArg Prod.fst hirq⟩, congrArg Seen.interrupt hwrites⟩

/-- Without a request of its own a driver is what shows of it, in every run. -/
theorem Machine.Shows.sights {M : Machine} {hw : M.driver.Dev → Prop} {view : M.driver.Dev → View}
    (h : M.Shows hw view) (hheader : M.driver.header = basicHeader) {d : M.driver.Dev} (hd : hw d)
    (es : List Event) : M.sights d es = viewMachine.sights (view d) es := by
  have hsame (d : M.driver.Dev) (v : View) (e : Event) (hv : hw d ∧ view d = v) (_ : True) :
      (hw (M.step d e) ∧ view (M.step d e) = viewMachine.step v e) ∧
        M.sight d e = viewMachine.sight v e := by
    obtain ⟨hd, rfl⟩ := hv
    exact h.step hd e fun _ _ _ _ _ => by rw [hheader]
  exact (trace_eq_iff hsame (fun _ _ _ _ h => absurd trivial h) ⟨hd, rfl⟩ es).mpr fun _ _ => trivial

theorem basic_machine : basicMachine.Shows (fun _ => True) basicView :=
  ⟨basic_shows, fun _ _ _ => trivial, fun _ _ => rfl⟩

theorem sim_machine : simMachine.Shows (fun d => d.simulated = false) simView :=
  ⟨sim_shows, fun _ _ h => h, fun _ _ => rfl⟩

theorem ring_machine : ringMachine.Shows RingHw ringView :=
  ⟨ring_shows, fun _ _ h => h, fun _ _ => rfl⟩

/-- The ring driver is what shows of it until one of its own requests comes. -/
theorem ring_sights {d : Ring.ProtoPcieDev} (hd : RingHw d) (es : List Event) :
    ringMachine.sights d es = viewMachine.sights (ringView d) es ↔ ∀ e ∈ es, e.Common := by
  have hsame (d : Ring.ProtoPcieDev) (v : View) (e : Event) (hv : RingHw d ∧ ringView d = v)
      (he : e.Common) :
      (RingHw (ringMachine.step d e) ∧ ringView (ringMachine.step d e) = viewMachine.step v e) ∧
        ringMachine.sight d e = viewMachine.sight v e := by
    obtain ⟨hd, rfl⟩ := hv
    refine ring_machine.step hd e fun status cmd arg u hcall => ?_
    subst hcall
    exact ring_decode he
  have hdiffers (d : Ring.ProtoPcieDev) (v : View) (e : Event) (hv : RingHw d ∧ ringView d = v)
      (he : ¬ e.Common) : ringMachine.sight d e ≠ viewMachine.sight v e := by
    cases e with
    | call status cmd arg u => exact ring_call_differs hv.1 v status (not_not.mp he) arg u
    | interrupt status => exact absurd trivial he
  exact trace_eq_iff hsame hdiffers ⟨hd, rfl⟩ es

/-- **On hardware a process cannot tell the drivers apart**, but for the ring driver by its own two
requests, whatever it calls and whatever the device does. The file of the basic driver ends before its
probe, which may leave anything that shows as much of the device. -/
theorem hardware_drivers_agree (pdev : PciResources) {d : Basic.ProtoPcieDev}
    (hview : basicView d = simView (Sim.protoPciProbe pdev).1) (es : List Event) :
    let sim := simMachine.sights (Sim.protoPciProbe pdev).1 es
    basicMachine.sights d es = sim ∧
      (ringMachine.sights (Ring.protoPciProbe pdev).1 es = sim ↔ ∀ e ∈ es, e.Common) := by
  intro sim
  have hsim : sim = viewMachine.sights (simView (Sim.protoPciProbe pdev).1) es :=
    sim_machine.sights rfl rfl es
  constructor
  · rw [hsim, ← hview]
    exact basic_machine.sights rfl trivial es
  · rw [hsim]
    exact ring_sights ⟨rfl, rfl, rfl⟩ es

/-- What a probe like that of the other drivers would leave. -/
def basicDevice (pdev : PciResources) : Basic.ProtoPcieDev where
  bar0Len := pdev.bar0Len
  irq := pdev.irq
  dmaBuf := pdev.dmaBuf
  dmaHandle := pdev.dmaHandle
  dmaLen := 4096
  lastStatus := 0

theorem common_sendCmd : ¬ RingWord protoPcieIocSendCmd.word := by
  rintro ⟨c, hc | hc, hword⟩ <;> cases hc <;> exact absurd hword (by decide)

/-- A command and its interrupt look alike, and the request to process does not. -/
theorem hardware_drivers_agree_process :
    let pdev : PciResources := ⟨0x1000, 11, Mem.zero, 0x8000⟩
    let u : UserMem := fun _ => some 0
    let es : List Event := [.call 0 protoPcieIocSendCmd.word 0 u, .interrupt 6]
    let es' := es ++ [.call 2 (io protoPcieIocMagic 5).word 0 u]
    let sim := simMachine.sights (Sim.protoPciProbe pdev).1
    let ring := ringMachine.sights (Ring.protoPciProbe pdev).1
    basicMachine.sights (basicDevice pdev) es' = sim es' ∧ ring es = sim es ∧ ring es' ≠ sim es' := by
  intro pdev u es es' sim ring
  have hview : basicView (basicDevice pdev) = simView (Sim.protoPciProbe pdev).1 := rfl
  have hagree := hardware_drivers_agree pdev hview
  refine ⟨(hagree es').1, (hagree es).2.mpr ?_, fun hsame => ?_⟩
  · exact List.forall_mem_cons.mpr ⟨common_sendCmd, by simp [Event.Common]⟩
  · have hcommon := (hagree es').2.mp hsame _ (List.mem_append_right _ (List.mem_singleton_self _))
    exact hcommon ⟨_, .inl rfl, rfl⟩

end PcieDriver.Wire
