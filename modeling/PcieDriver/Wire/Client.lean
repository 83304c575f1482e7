import PcieDriver.Base.Machine
import PcieDriver.Ring.EndToEnd
import PcieDriver.Wire.Ioctl

/-!
# class ProtoPcie, down to the bytes

Each method puts a local variable on its stack, hands its address to `ioctl`, and returns what the
variable holds afterwards. The program and the driver may come from different directories.
-/

open Base
open PcieDriver.Ring (Ioctl Reply Errno RegWrite replied strerror)

namespace PcieDriver.Wire

/-! ## The methods -/

/-- A method by its request, its name in the text that it throws, the local variable that it passes
and what it returns of it. -/
structure Method where
  request : Request
  what : String
  argument : List Byte
  result : List Byte → Reply

namespace ProtoPcie

def zeros (n : Nat) : List Byte := List.replicate n 0

def info : Method := ⟨.getInfo, "GET_INFO", zeros Wire.info.size, fun bs => .info (Wire.info.dec bs)⟩

def ringState : Method :=
  ⟨.getRingState, "GET_RING_STATE", zeros Wire.ringState.size,
    fun bs => .ringState (Wire.ringState.dec bs)⟩

def reset : Method := ⟨.reset, "RESET", [], fun _ => .done⟩

def sendCommand (opcode : BitVec 32) (payload : List Byte) : Method :=
  ⟨.sendCmd, "SEND_CMD", command.enc (Ring.ProtoPcie.command opcode payload), fun _ => .done⟩

def processPending : Method := ⟨.processPending, "PROCESS_PENDING", [], fun _ => .done⟩

def status : Method :=
  ⟨.getStatus, "GET_STATUS", zeros Codec.u32.size, fun bs => .status (Codec.u32.dec bs)⟩

end ProtoPcie

/-- What a caller of the class can do, on any header. -/
inductive Op
  | info
  | ringState
  | reset
  | sendCommand (opcode : BitVec 32) (payload : List Byte)
  | processPending
  | status

def Op.method : Op → Method
  | .info => ProtoPcie.info
  | .ringState => ProtoPcie.ringState
  | .reset => ProtoPcie.reset
  | .sendCommand opcode payload => ProtoPcie.sendCommand opcode payload
  | .processPending => ProtoPcie.processPending
  | .status => ProtoPcie.status

def throws (what : String) (err : Errno) : String := "ioctl(" ++ what ++ ") failed: " ++ strerror err

/-- What the method makes of the outcome, with its local variable at `sp`. -/
def Method.finish {σ : Type} (m : Method) (sp : Nat) (o : Outcome σ) : Except String Reply :=
  match o.ret with
  | .ok () => .ok (m.result ((copyFromUser o.user sp m.argument.length).getD []))
  | .error err => .error (throws m.what err)

/-- The call of a method whose header defines `c`. -/
def Method.call {σ : Type} (m : Method) (ioctl : BitVec 32 → Nat → UserMem → Outcome σ) (c : Ioc)
    (sp : Nat) (u : UserMem) : Outcome σ × Except String Reply :=
  let o := ioctl c.word sp (copyToUser u sp m.argument).1
  (o, m.finish sp o)

/-! ## What the caller means -/

def Op.ioctl : Op → Ioctl
  | .info => .getInfo true
  | .ringState => .getRingState true
  | .reset => .reset
  | .sendCommand opcode payload => .sendCmd true (Ring.ProtoPcie.command opcode payload)
  | .processPending => .processPending
  | .status => .getStatus true

/-- What the class makes of the driver's answer. -/
def Op.answer (op : Op) : Except Errno Reply → Except String Reply
  | .ok reply => .ok reply
  | .error err => .error (throws op.method.what err)

/-- The driver does what the caller means if the headers agree on the number, and nothing if not. -/
def Op.meant (D : Driver) (op : Op) (c : Ioc) (d : D.Dev) (status : BitVec 32) :
    D.Dev × List RegWrite × Except Errno Reply :=
  if D.header op.method.request = some c then D.ioctl d status op.ioctl
  else (d, [], .error .enotty)

/-- The outcome of a method is what the caller means. -/
structure Speaks {σ : Type} (op : Op) (got : Outcome σ × Except String Reply)
    (meant : σ × List RegWrite × Except Errno Reply) : Prop where
  dev : got.1.dev = meant.1
  writes : got.1.writes = meant.2.1
  answer : got.2 = op.answer meant.2.2

/-! ## There and back -/

section
variable {σ : Type} {op : Op} {sp : Nat} {u : UserMem}

/-- The structure that the driver has handed over is the one that the method returns. -/
theorem speaks_handsOver {α : Type} {make : α → Reply} {c : Codec α}
    (hbytes : ∀ a, bytesOfReply (make a) = c.enc a)
    (hresult : ∀ bs, op.method.result bs = make (c.dec bs))
    (hsize : op.method.argument.length = c.size)
    {f : Bool → σ × List RegWrite × Except Errno Reply} (h : HandsOver make f)
    (hmapped : Mapped u sp op.method.argument.length) :
    Speaks op (deliver u sp (f true), op.method.finish sp (deliver u sp (f true))) (f true) := by
  obtain ⟨d, ⟨a, hf⟩ | ⟨err, hf⟩⟩ := h
  · have hlength : op.method.argument.length = (c.enc a).length := by rw [hsize, c.enc_length]
    rw [hlength] at hmapped
    have hwhole : (copyToUser u sp (c.enc a)).2 = true := by
      rw [copyToUser_whole, copyFromUser_mapped hmapped]
    rw [hf]
    refine ⟨rfl, rfl, ?_⟩
    simp only [deliver, replied, if_true, hbytes, hwhole, Method.finish, hlength,
      copyFrom_copyTo hmapped, Option.getD_some, hresult, c.dec_enc, Op.answer]
  · rw [hf]
    exact ⟨rfl, rfl, rfl⟩

theorem speaks_noAnswer {out : σ × List RegWrite × Except Errno Reply} (h : NoAnswer out)
    (hresult : ∀ bs, op.method.result bs = .done) (u : UserMem) :
    Speaks op (deliver u sp out, op.method.finish sp (deliver u sp out)) out := by
  obtain ⟨d, ws, ret⟩ := out
  cases ret with
  | error err => exact ⟨rfl, rfl, rfl⟩
  | ok reply =>
    obtain rfl := h reply rfl
    refine ⟨rfl, rfl, ?_⟩
    simp only [deliver, bytesOfReply, copyToUser, if_true, Method.finish, hresult, Op.answer]

end

/-- **A method does what its caller means**, or throws that the request is unknown, whichever of the
headers the program and the driver were built with, and wherever the local variable is. -/
theorem method_speaks (D : Driver) (d : D.Dev) (status : BitVec 32) {h : Header} (hh : Known h)
    (op : Op) {c : Ioc} (hc : h op.method.request = some c) {sp : Nat} {u : UserMem}
    (hmapped : Mapped u sp op.method.argument.length) :
    Speaks op (op.method.call (D.call d status) c sp u) (op.meant D c d status) := by
  have hmapped' := hmapped.copyToUser sp op.method.argument
  unfold Method.call Driver.call Op.meant
  rw [decode_word hh D.known hc]
  split_ifs
  · cases op with
    | info => exact speaks_handsOver (fun _ => rfl) (fun _ => rfl) rfl (D.getInfo d status) hmapped'
    | ringState =>
      exact speaks_handsOver (fun _ => rfl) (fun _ => rfl) rfl (D.getRingState d status) hmapped'
    | reset => exact speaks_noAnswer (D.reset d status) (fun _ => rfl) _
    | sendCommand opcode payload =>
      have hcopy : copyFromUser (copyToUser u sp (Op.sendCommand opcode payload).method.argument).1 sp
          command.size = some (command.enc (Ring.ProtoPcie.command opcode payload)) := by
        rw [← command.enc_length]
        exact copyFrom_copyTo hmapped
      rw [hcopy]
      simp only [command.dec_enc]
      exact speaks_noAnswer (D.sendCmd d status _) (fun _ => rfl) _
    | processPending => exact speaks_noAnswer (D.processPending d status) (fun _ => rfl) _
    | status => exact speaks_handsOver (fun _ => rfl) (fun _ => rfl) rfl (D.getStatus d status) hmapped'
  · exact ⟨rfl, rfl, rfl⟩

/-! ## Programs -/

/-- One call of a program that was built with `h`. Anything may happen to the device before it. -/
structure Use (D : Driver) (h : Header) where
  known : Known h
  op : Op
  c : Ioc
  hc : h op.method.request = some c
  sp : Nat
  u : UserMem
  mapped : Mapped u sp op.method.argument.length
  status : BitVec 32
  before : D.Dev → D.Dev

namespace Use

variable {D : Driver} {h : Header}

def called (d : D.Dev) (x : Use D h) : Outcome D.Dev × Except String Reply :=
  x.op.method.call (D.call (x.before d) x.status) x.c x.sp x.u

def meant (d : D.Dev) (x : Use D h) : D.Dev × List RegWrite × Except Errno Reply :=
  x.op.meant D x.c (x.before d) x.status

end Use

/-- **A program gets what it means**, call by call. -/
theorem program_speaks (D : Driver) (h : Header) (d : D.Dev) (xs : List (Use D h)) :
    trace (fun d x => (x.called d).1.dev)
        (fun d x => ((x.called d).1.dev, (x.called d).1.writes, (x.called d).2)) d xs =
      trace (fun d x => (x.meant d).1)
        (fun d x => ((x.meant d).1, (x.meant d).2.1, x.op.answer (x.meant d).2.2)) d xs := by
  have hspeaks (d : D.Dev) (x : Use D h) : Speaks x.op (x.called d) (x.meant d) :=
    method_speaks D (x.before d) x.status x.known x.op x.hc x.mapped
  exact trace_ext (fun d x => (hspeaks d x).dev)
    (fun d x => by rw [(hspeaks d x).dev, (hspeaks d x).writes, (hspeaks d x).answer]) d xs

/-- A program that was built with the header of the async directory. Its memory is all mapped. -/
def asyncUse (op : Op) {c : Ioc} (hc : asyncHeader op.method.request = some c) :
    Use ringDriver asyncHeader where
  known := .inr (.inr rfl)
  op := op
  c := c
  hc := hc
  sp := 0
  u := fun _ => some 0
  mapped := fun _ _ _ => rfl
  status := 0
  before := id

/-- The async header asks for the state of the rings under 5, where the ring header has the request to
process. The driver takes it for neither, and serves the calls before and after it. -/
theorem program_speaks_async :
    let xs := [asyncUse (.sendCommand 7 [1, 2]) rfl, asyncUse .ringState rfl, asyncUse .status rfl]
    (trace (fun d x => (x.called d).1.dev)
        (fun d x => ((x.called d).1.dev, (x.called d).1.writes, (x.called d).2)) Ring.protoSimProbe
        xs).map (fun seen => seen.2.2) =
      [.ok .done, .error (throws "GET_RING_STATE" .enotty), .ok (.status Ring.statusReady)] := by
  intro xs
  have hspeaks := program_speaks ringDriver asyncHeader Ring.protoSimProbe xs
  exact (congrArg (List.map fun seen => seen.2.2) hspeaks).trans rfl

end PcieDriver.Wire
