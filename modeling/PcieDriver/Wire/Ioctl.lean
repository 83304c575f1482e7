import PcieDriver.Base.Machine
import PcieDriver.Basic.Device
import PcieDriver.Sim.Device
import PcieDriver.Wire.Header

/-!
# proto_ioctl, from the number and the pointer

The three drivers differ in their headers and in what they do, not in how they read a request and
hand back the answer. A process may pass any number and any pointer.
-/

open Base
open PcieDriver.Ring (ProtoPcieCommand Ioctl Reply Errno RegWrite replied)

namespace PcieDriver.Wire

/-! ## A driver -/

def bytesOfReply : Reply → List Byte
  | .done => []
  | .info i => info.enc i
  | .status status => Codec.u32.enc status
  | .ringState state => ringState.enc state

/-- A structure is handed over at the end, and all that depends on whether this works is what the call
returns. -/
def HandsOver {σ α : Type} (make : α → Reply)
    (f : Bool → σ × List RegWrite × Except Errno Reply) : Prop :=
  ∃ d, (∃ a, ∀ copied, f copied = (d, [], replied copied (make a))) ∨
    ∃ err, ∀ copied, f copied = (d, [], .error err)

/-- There is nothing to hand over. -/
def NoAnswer {σ : Type} (out : σ × List RegWrite × Except Errno Reply) : Prop :=
  ∀ reply, out.2.2 = .ok reply → reply = .done

structure Driver where
  Dev : Type
  header : Header
  ioctl : Dev → BitVec 32 → Ioctl → Dev × List RegWrite × Except Errno Reply
  known : Known header
  other : ∀ d status, ioctl d status .other = (d, [], .error .enotty)
  uncopied : ∀ d status c, ioctl d status (.sendCmd false c) = (d, [], .error .efault)
  getInfo : ∀ d status, HandsOver .info fun copied => ioctl d status (.getInfo copied)
  getStatus : ∀ d status, HandsOver .status fun copied => ioctl d status (.getStatus copied)
  getRingState : ∀ d status,
    HandsOver .ringState fun copied => ioctl d status (.getRingState copied)
  reset : ∀ d status, NoAnswer (ioctl d status .reset)
  sendCmd : ∀ d status c, NoAnswer (ioctl d status (.sendCmd true c))
  processPending : ∀ d status, NoAnswer (ioctl d status .processPending)

theorem noAnswer_done {σ : Type} (d : σ) (ws : List RegWrite) :
    NoAnswer (d, ws, (.ok .done : Except Errno Reply)) :=
  fun _ h => (Except.ok.inj h).symm

theorem noAnswer_error {σ : Type} (d : σ) (ws : List RegWrite) (err : Errno) :
    NoAnswer (d, ws, (.error err : Except Errno Reply)) :=
  fun _ h => by cases h

def basicDriver : Driver where
  Dev := Basic.ProtoPcieDev
  header := basicHeader
  ioctl := Basic.protoIoctl
  known := basicHeader_known
  other _ _ := rfl
  uncopied _ _ _ := rfl
  getInfo d _ := ⟨d, .inl ⟨_, fun _ => rfl⟩⟩
  getStatus d _ := ⟨d, .inl ⟨_, fun _ => rfl⟩⟩
  getRingState d _ := ⟨d, .inr ⟨.enotty, fun _ => rfl⟩⟩
  reset _ _ := noAnswer_done _ _
  sendCmd _ _ _ := noAnswer_done _ _
  processPending _ _ := noAnswer_error _ _ _

def simDriver : Driver where
  Dev := Sim.ProtoPcieDev
  header := basicHeader
  ioctl := Sim.protoIoctl
  known := basicHeader_known
  other _ _ := rfl
  uncopied _ _ _ := rfl
  getInfo d _ := ⟨d, .inl ⟨_, fun _ => rfl⟩⟩
  getStatus d _ := ⟨d, .inl ⟨_, fun _ => rfl⟩⟩
  getRingState d _ := ⟨d, .inr ⟨.enotty, fun _ => rfl⟩⟩
  reset _ _ := noAnswer_done _ _
  sendCmd _ _ _ := noAnswer_done _ _
  processPending _ _ := noAnswer_error _ _ _

theorem ring_noAnswer (d : Ring.ProtoPcieDev) (status : BitVec 32) (c : ProtoPcieCommand) :
    NoAnswer (Ring.protoIoctl d status (.sendCmd true c)) := by
  simp only [Ring.protoIoctl, Bool.not_true, Bool.false_eq_true, if_false]
  split_ifs
  · intro reply hreply
    cases hret : (Ring.protoSimEnqueueCommand d c).2 <;> simp [hret, Except.map] at hreply
    exact hreply.symm
  · exact noAnswer_done _ _

theorem ring_handsOver (d : Ring.ProtoPcieDev) (status : BitVec 32) :
    HandsOver .ringState fun copied => Ring.protoIoctl d status (.getRingState copied) := by
  refine ⟨d, ?_⟩
  simp only [Ring.protoIoctl]
  split_ifs
  · exact .inl ⟨_, fun _ => rfl⟩
  · exact .inr ⟨.enotsupp, fun _ => rfl⟩

def ringDriver : Driver where
  Dev := Ring.ProtoPcieDev
  header := ringHeader
  ioctl := Ring.protoIoctl
  known := .inr (.inl rfl)
  other _ _ := rfl
  uncopied _ _ _ := rfl
  getInfo d _ := ⟨d, .inl ⟨_, fun _ => rfl⟩⟩
  getStatus d _ := ⟨d, .inl ⟨_, fun _ => rfl⟩⟩
  getRingState := ring_handsOver
  reset _ _ := noAnswer_done _ _
  sendCmd := ring_noAnswer
  processPending _ _ := noAnswer_done _ _

/-! ## The system call -/

/-- What a call leaves: the device, the registers written, the memory of the caller, the result. -/
structure Outcome (σ : Type) where
  dev : σ
  writes : List RegWrite
  user : UserMem
  ret : Except Errno Unit

/-- The outcome of a call is that of an ioctl, as far as the driver sees it. -/
structure Outcome.Of {σ : Type} (o : Outcome σ) (out : σ × List RegWrite × Except Errno Reply) :
    Prop where
  dev : o.dev = out.1
  writes : o.writes = out.2.1
  ret : o.ret = out.2.2.map fun _ => ()

/-- The structure goes to the pointer. -/
def deliver {σ : Type} (u : UserMem) (arg : Nat)
    (out : σ × List RegWrite × Except Errno Reply) : Outcome σ :=
  match out.2.2 with
  | .error err => ⟨out.1, out.2.1, u, .error err⟩
  | .ok reply =>
    let (user, whole) := copyToUser u arg (bytesOfReply reply)
    ⟨out.1, out.2.1, user, if whole then .ok () else .error .efault⟩

namespace Driver

variable (D : Driver)

/-- `proto_ioctl`. -/
def call (d : D.Dev) (status cmd : BitVec 32) (arg : Nat) (u : UserMem) : Outcome D.Dev :=
  match D.header.decode cmd with
  | some .getInfo => deliver u arg (D.ioctl d status (.getInfo true))
  | some .reset => deliver u arg (D.ioctl d status .reset)
  | some .sendCmd =>
    match copyFromUser u arg command.size with
    | none => ⟨d, [], u, .error .efault⟩
    | some bs => deliver u arg (D.ioctl d status (.sendCmd true (command.dec bs)))
  | some .getStatus => deliver u arg (D.ioctl d status (.getStatus true))
  | some .processPending => deliver u arg (D.ioctl d status .processPending)
  | some .getRingState => deliver u arg (D.ioctl d status (.getRingState true))
  | some .waitCompletion | none => ⟨d, [], u, .error .enotty⟩

/-- The ioctl that a call amounts to. -/
def ioctlOf (cmd : BitVec 32) (arg : Nat) (u : UserMem) : Ioctl :=
  match D.header.decode cmd with
  | some .getInfo => .getInfo (copyFromUser u arg info.size).isSome
  | some .reset => .reset
  | some .sendCmd =>
    .sendCmd (copyFromUser u arg command.size).isSome
      (command.dec ((copyFromUser u arg command.size).getD []))
  | some .getStatus => .getStatus (copyFromUser u arg Codec.u32.size).isSome
  | some .processPending => .processPending
  | some .getRingState => .getRingState (copyFromUser u arg ringState.size).isSome
  | some .waitCompletion | none => .other

theorem deliver_handsOver {σ α : Type} {make : α → Reply} {c : Codec α}
    (hbytes : ∀ a, bytesOfReply (make a) = c.enc a)
    {f : Bool → σ × List RegWrite × Except Errno Reply} (h : HandsOver make f) (u : UserMem)
    (arg : Nat) : (deliver u arg (f true)).Of (f (copyFromUser u arg c.size).isSome) := by
  obtain ⟨d, ⟨a, hf⟩ | ⟨err, hf⟩⟩ := h
  · have hwhole : (copyToUser u arg (bytesOfReply (make a))).2 =
        (copyFromUser u arg c.size).isSome := by
      rw [copyToUser_whole, hbytes, c.enc_length]
    rw [hf, hf, ← hwhole]
    refine ⟨rfl, rfl, ?_⟩
    simp only [deliver, replied, if_true]
    split_ifs <;> rfl
  · rw [hf, hf]
    exact ⟨rfl, rfl, rfl⟩

theorem deliver_noAnswer {σ : Type} {out : σ × List RegWrite × Except Errno Reply}
    (h : NoAnswer out) (u : UserMem) (arg : Nat) : (deliver u arg out).Of out := by
  obtain ⟨d, ws, ret⟩ := out
  cases ret with
  | error err => exact ⟨rfl, rfl, rfl⟩
  | ok reply =>
    rw [h reply rfl]
    exact ⟨rfl, rfl, rfl⟩

/-- **Every call is an ioctl**, whatever the number, the pointer and the memory are. -/
theorem call_ioctlOf (d : D.Dev) (status cmd : BitVec 32) (arg : Nat) (u : UserMem) :
    (D.call d status cmd arg u).Of (D.ioctl d status (D.ioctlOf cmd arg u)) := by
  have hother : Outcome.Of ⟨d, [], u, .error .enotty⟩ (D.ioctl d status .other) := by
    rw [D.other]
    exact ⟨rfl, rfl, rfl⟩
  unfold call ioctlOf
  cases D.header.decode cmd with
  | none => exact hother
  | some r =>
    cases r with
    | getInfo => exact deliver_handsOver (fun _ => rfl) (D.getInfo d status) u arg
    | getStatus => exact deliver_handsOver (fun _ => rfl) (D.getStatus d status) u arg
    | getRingState => exact deliver_handsOver (fun _ => rfl) (D.getRingState d status) u arg
    | reset => exact deliver_noAnswer (D.reset d status) u arg
    | processPending => exact deliver_noAnswer (D.processPending d status) u arg
    | waitCompletion => exact hother
    | sendCmd =>
      cases hbs : copyFromUser u arg command.size with
      | none =>
        simp only [Option.isSome_none, D.uncopied]
        exact ⟨rfl, rfl, rfl⟩
      | some bs =>
        simp only [Option.isSome_some, Option.getD_some]
        exact deliver_noAnswer (D.sendCmd d status (command.dec bs)) u arg

/-- A system call of any process: its number, its pointer, its memory, and what happened to the device
before. -/
structure RawCall where
  before : D.Dev → D.Dev
  status : BitVec 32
  cmd : BitVec 32
  arg : Nat
  u : UserMem

def RawCall.outcome {D : Driver} (d : D.Dev) (x : D.RawCall) : Outcome D.Dev :=
  D.call (x.before d) x.status x.cmd x.arg x.u

def RawCall.typed {D : Driver} (d : D.Dev) (x : D.RawCall) : D.Dev × List RegWrite × Except Errno Reply :=
  D.ioctl (x.before d) x.status (D.ioctlOf x.cmd x.arg x.u)

/-- **A run of calls is a run of ioctls**, whatever the numbers, the pointers and the memories are. -/
theorem calls_are_ioctls (d : D.Dev) (xs : List D.RawCall) :
    trace (fun d x => (x.outcome d).dev)
        (fun d x => ((x.outcome d).dev, (x.outcome d).writes, (x.outcome d).ret)) d xs =
      trace (fun d x => (x.typed d).1)
        (fun d x => ((x.typed d).1, (x.typed d).2.1, (x.typed d).2.2.map fun _ => ())) d xs := by
  have hsame (d : D.Dev) (x : D.RawCall) : (x.outcome d).Of (x.typed d) :=
    D.call_ioctlOf (x.before d) x.status x.cmd x.arg x.u
  exact trace_ext (fun d x => (hsame d x).dev)
    (fun d x => by rw [(hsame d x).dev, (hsame d x).writes, (hsame d x).ret]) d xs

end Driver

end PcieDriver.Wire
