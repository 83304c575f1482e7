import PcieDriver.Base.Codec
import PcieDriver.Base.Ioc
import PcieDriver.Edu.Trips

/-!
# From Python to the driver

A method of the Python class calls the C shim, the shim calls the C++ class, and that puts a structure
on its stack and hands its address to the driver. Integers are cut to the fields, structures become
bytes, and return codes become exceptions, return codes and exceptions again.
-/

open Base

namespace PcieDriver.Edu.Abi

/-! ## The structures and the requests

`edu_pci.c` and `edu_device.hpp` define both, and alike. -/

def factReq : Codec EduFactReq :=
  (Codec.u32.pair <| Codec.u32.pair Codec.u32).named
    (fun r => (r.input, r.output, r.irqStatus))
    (fun (input, output, irqStatus) => ⟨input, output, irqStatus⟩)
    (fun _ => rfl)

def stateReq : Codec EduStateReq :=
  (Codec.u32.pair <| Codec.u32.pair <| Codec.u32.pair Codec.u32).named
    (fun r => (r.lastIrq, r.lastFactIn, r.lastFactOut, r.dmaOk))
    (fun (lastIrq, lastFactIn, lastFactOut, dmaOk) => ⟨lastIrq, lastFactIn, lastFactOut, dmaOk⟩)
    (fun _ => rfl)

/-- The third field is the padding, which is zeroed and never read. -/
def submitReq : Codec EduSubmitReq :=
  (Codec.u16.pair <| Codec.u8.pair <| Codec.u8.pair Codec.u32).named
    (fun r => (r.tag, r.opcode, 0, r.operand))
    (fun (tag, opcode, _, operand) => ⟨tag, opcode, operand⟩)
    (fun _ => rfl)

def completionReq : Codec EduCompletionReq :=
  (Codec.u16.pair <| Codec.u8.pair <| Codec.u8.pair Codec.u32).named
    (fun r => (r.tag, r.status, 0, r.result))
    (fun (tag, status, _, result) => ⟨tag, status, result⟩)
    (fun _ => rfl)

def eduIocMagic : BitVec 8 := 0x45

inductive Request
  | runFactorial | runDmaTest | getState | submit | pollCq | setEventfd
  deriving DecidableEq

def Request.number : Request → Ioc
  | .runFactorial => iowr eduIocMagic 1 factReq.size
  | .runDmaTest => io eduIocMagic 2
  | .getState => ior eduIocMagic 3 stateReq.size
  | .submit => iow eduIocMagic 4 submitReq.size
  | .pollCq => ior eduIocMagic 5 completionReq.size
  | .setEventfd => iow eduIocMagic 6 Codec.u32.size

def Request.all : List Request := [.runFactorial, .runDmaTest, .getState, .submit, .pollCq, .setEventfd]

/-- `switch (cmd)`. -/
def decode (cmd : BitVec 32) : Option Request := Request.all.find? fun r => r.number.word = cmd

theorem number_inj {r r' : Request} (h : r.number = r'.number) : r = r' := by
  revert h
  cases r <;> cases r' <;> decide

theorem decode_word (r : Request) : decode r.number.word = some r := by
  have hmeans (r' : Request) : r'.number.word = r.number.word ↔ r' = r :=
    ⟨fun h => number_inj (Ioc.word_inj h), fun h => h ▸ rfl⟩
  simp only [decode, hmeans]
  cases r <;> decide

/-! ## edu_ioctl -/

/-- What `edu_ioctl` returns beside 0. The last two come from the file layer and from the lookup of a
descriptor. -/
inductive IoctlErr
  | code (err : Errno)
  | enotty
  | ebadf
  deriving DecidableEq

/-- What the calls run on: the functions that `edu_ioctl` calls, with whatever goes on while they run,
and the part of the `EduDevice` object that a submit uses. -/
structure Host (σ : Type) where
  runFactorial : σ → EduFactReq → σ × Except Errno EduFactReq
  runDmaTest : σ → σ × Except Errno Unit
  state : σ → EduStateReq
  submit : σ → EduSubmitReq → σ × Except Errno Unit
  pollCq : σ → σ × Except Errno EduCompletionReq
  fdget : σ → BitVec 32 → Except IoctlErr Nat
  setEventfd : σ → Nat → σ
  ringsMapped : σ → Bool
  writeEntry : σ → EduSubmitReq → σ
  accepted : σ → σ

section
variable {σ : Type}

def copyOut (s : σ) (u : UserMem) (arg : Nat) (bs : List Byte) : σ × UserMem × Except IoctlErr Unit :=
  let (u, whole) := copyToUser u arg bs
  (s, u, if whole then .ok () else .error (.code .efault))

def eduIoctl (H : Host σ) (s : σ) (cmd : BitVec 32) (arg : Nat) (u : UserMem) :
    σ × UserMem × Except IoctlErr Unit :=
  match decode cmd with
  | some .runFactorial =>
    match copyFromUser u arg factReq.size with
    | none => (s, u, .error (.code .efault))
    | some bs =>
      match H.runFactorial s (factReq.dec bs) with
      | (s, .error _) => (s, u, .error (.code .etimedout))
      | (s, .ok req) => copyOut s u arg (factReq.enc req)
  | some .runDmaTest =>
    let (s, ret) := H.runDmaTest s
    (s, u, ret.mapError .code)
  | some .getState => copyOut s u arg (stateReq.enc (H.state s))
  | some .submit =>
    match copyFromUser u arg submitReq.size with
    | none => (s, u, .error (.code .efault))
    | some bs =>
      let (s, ret) := H.submit s (submitReq.dec bs)
      (s, u, ret.mapError .code)
  | some .pollCq =>
    match H.pollCq s with
    | (s, .error err) => (s, u, .error (.code err))
    | (s, .ok out) => copyOut s u arg (completionReq.enc out)
  | some .setEventfd =>
    match copyFromUser u arg Codec.u32.size with
    | none => (s, u, .error (.code .efault))
    | some bs =>
      match H.fdget s (Codec.u32.dec bs) with
      | .error err => (s, u, .error err)
      | .ok ctx => (H.setEventfd s ctx, u, .ok ())
  | none => (s, u, .error .enotty)

end

/-! ## class EduDevice -/

def errorText : IoctlErr → String
  | .code err => strerror err
  | .enotty => "Inappropriate ioctl for device"
  | .ebadf => "Bad file descriptor"

def raises (what : String) (err : IoctlErr) : String := what ++ ": " ++ errorText err

/-- A method by its request, the local variable that it passes, and what it makes of the bytes that
the variable holds afterwards, or of `errno`. -/
structure Method (α : Type) where
  request : Request
  argument : List Byte
  finish : Except IoctlErr (List Byte) → Except String α

namespace Method

def factorial (n : BitVec 32) : Method (BitVec 32) where
  request := .runFactorial
  argument := factReq.enc ⟨n, 0, 0⟩
  finish
    | .ok bs => .ok (factReq.dec bs).output
    | .error err => .error (raises "EDU_IOC_RUN_FACTORIAL" err)

def dmaTest : Method Unit where
  request := .runDmaTest
  argument := []
  finish
    | .ok _ => .ok ()
    | .error err => .error (raises "EDU_IOC_RUN_DMA_TEST" err)

def state : Method EduStateReq where
  request := .getState
  argument := stateReq.enc ⟨0, 0, 0, 0⟩
  finish
    | .ok bs => .ok (stateReq.dec bs)
    | .error err => .error (raises "EDU_IOC_GET_STATE" err)

def ioctlSubmit (req : EduSubmitReq) : Method Unit where
  request := .submit
  argument := submitReq.enc req
  finish
    | .ok _ => .ok ()
    | .error (.code .enospc) => .error "ring full"
    | .error (.code .einval) => .error "bad opcode"
    | .error err => .error (raises "EDU_IOC_SUBMIT" err)

def pollCompletion : Method (Option EduCompletionReq) where
  request := .pollCq
  argument := completionReq.enc ⟨0, 0, 0⟩
  finish
    | .ok bs => .ok (some (completionReq.dec bs))
    | .error (.code .eagain) => .ok none
    | .error err => .error (raises "EDU_IOC_POLL_CQ" err)

def registerEventfd (evtfd : BitVec 32) : Method Unit where
  request := .setEventfd
  argument := Codec.u32.enc evtfd
  finish
    | .ok _ => .ok ()
    | .error err => .error (raises "EDU_IOC_SET_EVENTFD" err)

section
variable {σ α : Type}

def finishes (m : Method α) (sp : Nat) (out : σ × UserMem × Except IoctlErr Unit) :
    σ × Except String α :=
  (out.1, m.finish (out.2.2.map fun _ => (copyFromUser out.2.1 sp m.argument.length).getD []))

/-- The call, with the local variable at `sp`. -/
def call (m : Method α) (H : Host σ) (s : σ) (sp : Nat) (u : UserMem) : σ × Except String α :=
  m.finishes sp (eduIoctl H s m.request.number.word sp (copyToUser u sp m.argument).1)

end

end Method

section
variable {σ : Type}

/-- `EduDevice::submit`. -/
def submit (H : Host σ) (s : σ) (sp : Nat) (u : UserMem) (req : EduSubmitReq) :
    σ × Except String Unit :=
  match (Method.ioctlSubmit req).call H s sp u with
  | (s, .ok ()) => (H.accepted s, .ok ())
  | (s, .error what) => (s, .error what)

/-- `EduDevice::submit_zc`. -/
def submitZc (H : Host σ) (s : σ) (sp : Nat) (u : UserMem) (req : EduSubmitReq) :
    σ × Except String Unit :=
  if H.ringsMapped s then submit H (H.writeEntry s req) sp u req
  else (s, .error EduDevice.needsRings)

end

/-! ## The shim -/

/-- `std::string::find` finds `part`. -/
def has (what part : String) : Bool := decide (part.toList <:+: what.toList)

/-- A function of the shim returns -1 where this is an error, which is then in `errno`. -/
def shimPlain {α : Type} (ret : Except String α) : Except Errno α := ret.mapError fun _ => .eio

def shimSubmit (ret : Except String Unit) : Except Errno Unit :=
  ret.mapError fun what =>
    if has what "ring full" then .enospc
    else if has what "bad opcode" then .einval
    else .eio

def shimSubmitZc (ret : Except String Unit) : Except Errno Unit :=
  ret.mapError fun what =>
    if has what "ring full" then .enospc
    else if has what "bad opcode" then .einval
    else if has what "map_rings" then .einval
    else .eio

def shimPollCompletion : Except String (Option EduCompletionReq) → Except Errno EduCompletionReq
  | .ok (some c) => .ok c
  | .ok none => .error .eagain
  | .error _ => .error .eio

/-! ## Python -/

/-- A method of the Python class. Its integers are unbounded. -/
inductive PyCall
  | factorial (n : Int)
  | dmaTest
  | state
  | submit (tag opcode operand : Int)
  | submitZc (tag opcode operand : Int)
  | pollCompletion

inductive PyResult
  | nothing
  | int (n : Nat)
  | state (s : EduStateReq)
  | completion (c : EduCompletionReq)
  | osError (text : String)
  deriving DecidableEq

/-- The request, as `ctypes` cuts it. -/
def request (tag opcode operand : Int) : EduSubmitReq := ⟨.ofInt 16 tag, .ofInt 8 opcode, .ofInt 32 operand⟩

/-- The text of the `OSError`. -/
def failed (name : String) (tag : Int) : String := name ++ " failed (tag=" ++ toString tag ++ ")"

section
variable {σ : Type}

def PyCall.run (H : Host σ) (s : σ) (sp : Nat) (u : UserMem) : PyCall → σ × PyResult
  | .factorial n =>
    let (s, ret) := (Method.factorial (.ofInt 32 n)).call H s sp u
    match shimPlain ret with
    | .ok out => (s, .int out.toNat)
    | .error _ => (s, .osError "edu_factorial failed")
  | .dmaTest =>
    let (s, ret) := Method.dmaTest.call H s sp u
    match shimPlain ret with
    | .ok () => (s, .nothing)
    | .error _ => (s, .osError "edu_dma_test failed")
  | .state =>
    let (s, ret) := Method.state.call H s sp u
    match shimPlain ret with
    | .ok st => (s, .state st)
    | .error _ => (s, .osError "edu_state failed")
  | .submit tag opcode operand =>
    let (s, ret) := Abi.submit H s sp u (request tag opcode operand)
    match shimSubmit ret with
    | .ok () => (s, .nothing)
    | .error _ => (s, .osError (failed "edu_submit" tag))
  | .submitZc tag opcode operand =>
    let (s, ret) := Abi.submitZc H s sp u (request tag opcode operand)
    match shimSubmitZc ret with
    | .ok () => (s, .nothing)
    | .error _ => (s, .osError (failed "edu_submit_zc" tag))
  | .pollCompletion =>
    let (s, ret) := Method.pollCompletion.call H s sp u
    match shimPollCompletion ret with
    | .ok c => (s, .completion c)
    | .error _ => (s, .nothing)

/-! ## What the caller means -/

def meantSubmit (H : Host σ) (s : σ) (name : String) (tag : Int) (req : EduSubmitReq) : σ × PyResult :=
  match H.submit s req with
  | (s, .ok ()) => (H.accepted s, .nothing)
  | (s, .error _) => (s, .osError (failed name tag))

/-- Nothing but the operation of the driver, with the integers in its range. -/
def PyCall.meant (H : Host σ) (s : σ) : PyCall → σ × PyResult
  | .factorial n =>
    match H.runFactorial s ⟨.ofInt 32 n, 0, 0⟩ with
    | (s, .ok req) => (s, .int req.output.toNat)
    | (s, .error _) => (s, .osError "edu_factorial failed")
  | .dmaTest =>
    match H.runDmaTest s with
    | (s, .ok ()) => (s, .nothing)
    | (s, .error _) => (s, .osError "edu_dma_test failed")
  | .state => (s, .state (H.state s))
  | .submit tag opcode operand => meantSubmit H s "edu_submit" tag (request tag opcode operand)
  | .submitZc tag opcode operand =>
    let req := request tag opcode operand
    if H.ringsMapped s then meantSubmit H (H.writeEntry s req) "edu_submit_zc" tag req
    else (s, .osError (failed "edu_submit_zc" tag))
  | .pollCompletion =>
    match H.pollCq s with
    | (s, .ok c) => (s, .completion c)
    | (s, .error _) => (s, .nothing)

/-! ## There and back -/

variable {H : Host σ} {s : σ} {sp : Nat} {u : UserMem}

theorem copied {α : Type} (c : Codec α) (a : α) (hmapped : Mapped u sp c.size) :
    copyFromUser (copyToUser u sp (c.enc a)).1 sp c.size = some (c.enc a) := by
  have hlength := c.enc_length a
  rw [← hlength] at hmapped ⊢
  exact copyFrom_copyTo hmapped

/-- A structure that the driver hands over is the one that the method reads. -/
theorem finishes_copyOut {α β : Type} (m : Method β) (c : Codec α) (a : α)
    (hsize : m.argument.length = c.size) (hmapped : Mapped u sp c.size) :
    m.finishes sp (copyOut s u sp (c.enc a)) = (s, m.finish (.ok (c.enc a))) := by
  have hwhole : (copyToUser u sp (c.enc a)).2 = true := by
    rw [copyToUser_whole, c.enc_length]
    exact copyFromUser_mapped hmapped
  simp only [copyOut, hwhole, if_true, Method.finishes, hsize, copied c a hmapped, Except.map,
    Option.getD_some]

theorem call_factorial (hmapped : Mapped u sp factReq.size) (n : BitVec 32) :
    (Method.factorial n).call H s sp u =
      match H.runFactorial s ⟨n, 0, 0⟩ with
      | (s, .ok req) => (s, .ok req.output)
      | (s, .error _) => (s, .error (raises "EDU_IOC_RUN_FACTORIAL" (.code .etimedout))) := by
  have hargument : (Method.factorial n).argument = factReq.enc ⟨n, 0, 0⟩ := rfl
  have hrequest : (Method.factorial n).request = .runFactorial := rfl
  have hmapped' := hmapped.copyToUser sp (factReq.enc ⟨n, 0, 0⟩)
  simp only [Method.call, eduIoctl, hrequest, decode_word, hargument, copied factReq _ hmapped,
    factReq.dec_enc]
  cases H.runFactorial s ⟨n, 0, 0⟩ with
  | mk s' ret =>
    cases ret with
    | error err => rfl
    | ok req =>
      refine (finishes_copyOut _ factReq req (factReq.enc_length _) hmapped').trans ?_
      simp only [Method.factorial, factReq.dec_enc]

theorem call_dmaTest : Method.dmaTest.call H s sp u =
    ((H.runDmaTest s).1, (H.runDmaTest s).2.mapError fun err =>
      raises "EDU_IOC_RUN_DMA_TEST" (.code err)) := by
  have hrequest : Method.dmaTest.request = .runDmaTest := rfl
  simp only [Method.call, eduIoctl, hrequest, decode_word, Method.finishes]
  cases (H.runDmaTest s).2 <;> rfl

theorem call_state (hmapped : Mapped u sp stateReq.size) :
    Method.state.call H s sp u = (s, .ok (H.state s)) := by
  have hrequest : Method.state.request = .getState := rfl
  have hmapped' := hmapped.copyToUser sp (stateReq.enc ⟨0, 0, 0, 0⟩)
  simp only [Method.call, eduIoctl, hrequest, decode_word]
  refine (finishes_copyOut _ stateReq (H.state s) (stateReq.enc_length _) hmapped').trans ?_
  simp only [Method.state, stateReq.dec_enc]

theorem call_ioctlSubmit (hmapped : Mapped u sp submitReq.size) (req : EduSubmitReq) :
    (Method.ioctlSubmit req).call H s sp u =
      ((H.submit s req).1, EduDevice.submitResult (H.submit s req).2) := by
  have hargument : (Method.ioctlSubmit req).argument = submitReq.enc req := rfl
  have hrequest : (Method.ioctlSubmit req).request = .submit := rfl
  simp only [Method.call, eduIoctl, hrequest, decode_word, hargument, copied submitReq _ hmapped,
    submitReq.dec_enc, Method.finishes]
  cases (H.submit s req).2 with
  | ok => rfl
  | error err => cases err <;> rfl

theorem call_pollCompletion (hmapped : Mapped u sp completionReq.size) :
    Method.pollCompletion.call H s sp u =
      match H.pollCq s with
      | (s, .ok c) => (s, .ok (some c))
      | (s, .error .eagain) => (s, .ok none)
      | (s, .error err) => (s, .error (raises "EDU_IOC_POLL_CQ" (.code err))) := by
  have hrequest : Method.pollCompletion.request = .pollCq := rfl
  have hmapped' := hmapped.copyToUser sp (completionReq.enc ⟨0, 0, 0⟩)
  simp only [Method.call, eduIoctl, hrequest, decode_word]
  cases H.pollCq s with
  | mk s' ret =>
    cases ret with
    | error err => cases err <;> rfl
    | ok c =>
      refine (finishes_copyOut _ completionReq c (completionReq.enc_length _) hmapped').trans ?_
      simp only [Method.pollCompletion, completionReq.dec_enc]

theorem call_registerEventfd (hmapped : Mapped u sp Codec.u32.size) (evtfd : BitVec 32) :
    (Method.registerEventfd evtfd).call H s sp u =
      match H.fdget s evtfd with
      | .ok ctx => (H.setEventfd s ctx, .ok ())
      | .error err => (s, .error (raises "EDU_IOC_SET_EVENTFD" err)) := by
  have hargument : (Method.registerEventfd evtfd).argument = Codec.u32.enc evtfd := rfl
  have hrequest : (Method.registerEventfd evtfd).request = .setEventfd := rfl
  simp only [Method.call, eduIoctl, hrequest, decode_word, hargument, copied Codec.u32 _ hmapped,
    Codec.u32.dec_enc, Method.finishes]
  cases H.fdget s evtfd <;> rfl

/-! ### Errors -/

/-- What is left of the driver's error in the `errno` of a submit. -/
def submitErrno : Errno → Errno
  | .enospc => .enospc
  | .einval => .einval
  | _ => .eio

/-- The shim finds the error again in the text that the class has made of it. -/
theorem shimSubmit_errno (ret : Except Errno Unit) :
    shimSubmit (EduDevice.submitResult ret) = ret.mapError submitErrno ∧
      shimSubmitZc (EduDevice.submitResult ret) = ret.mapError submitErrno := by
  cases ret with
  | ok => exact ⟨rfl, rfl⟩
  | error err => cases err <;> decide

theorem shimSubmitZc_unmapped : shimSubmitZc (.error EduDevice.needsRings) = .error .einval := by
  decide

/-! ### The calls of Python -/

/-- The largest of the structures. -/
def stackSize : Nat := stateReq.size

theorem submit_class (hmapped : Mapped u sp submitReq.size) (req : EduSubmitReq) :
    submit H s sp u req =
      match H.submit s req with
      | (s, .ok ()) => (H.accepted s, .ok ())
      | (s, .error err) => (s, EduDevice.submitResult (.error err)) := by
  unfold submit
  rw [call_ioctlSubmit hmapped]
  cases H.submit s req with
  | mk s' ret =>
    cases ret with
    | ok => rfl
    | error err => cases err <;> rfl

theorem submit_means (hmapped : Mapped u sp submitReq.size) (name : String) (tag : Int)
    (req : EduSubmitReq) {shim : Except String Unit → Except Errno Unit}
    (hshim : ∀ ret, shim (EduDevice.submitResult ret) = ret.mapError submitErrno) :
    (match shim (submit H s sp u req).2 with
      | .ok () => ((submit H s sp u req).1, .nothing)
      | .error _ => ((submit H s sp u req).1, .osError (failed name tag))) =
        meantSubmit H s name tag req := by
  rw [submit_class hmapped]
  unfold meantSubmit
  cases H.submit s req with
  | mk s' ret =>
    cases ret with
    | ok =>
      have hok : shim (.ok ()) = .ok () := hshim (.ok ())
      simp only [hok]
    | error err => simp only [hshim, Except.mapError]

/-- **A method of the Python class does what its caller means**, wherever the class keeps its local
variable. -/
theorem call_means (hmapped : Mapped u sp stackSize) (c : PyCall) : c.run H s sp u = c.meant H s := by
  have hsubmit : Mapped u sp submitReq.size := hmapped.mono (by decide)
  cases c with
  | factorial n =>
    simp only [PyCall.run, PyCall.meant, call_factorial (hmapped.mono (by decide))]
    cases H.runFactorial s ⟨.ofInt 32 n, 0, 0⟩ with
    | mk s' ret => cases ret <;> rfl
  | dmaTest =>
    simp only [PyCall.run, PyCall.meant, call_dmaTest]
    cases H.runDmaTest s with
    | mk s' ret => cases ret <;> rfl
  | state =>
    simp only [PyCall.run, PyCall.meant, call_state hmapped]
    rfl
  | submit tag opcode operand =>
    exact submit_means hsubmit _ tag _ fun ret => (shimSubmit_errno ret).1
  | submitZc tag opcode operand =>
    simp only [PyCall.run, PyCall.meant, submitZc]
    split_ifs
    · exact submit_means hsubmit _ tag _ fun ret => (shimSubmit_errno ret).2
    · simp only [shimSubmitZc_unmapped]
  | pollCompletion =>
    simp only [PyCall.run, PyCall.meant, call_pollCompletion (hmapped.mono (by decide))]
    cases H.pollCq s with
    | mk s' ret =>
      cases ret with
      | ok => rfl
      | error err => cases err <;> rfl

end

/-! ## Programs -/

/-- What goes on while one call runs. -/
structure Around where
  first : FineLeg
  second : FineLeg
  kicking : List FineEvent
  fdget : BitVec 32 → Except IoctlErr Nat

/-- The driver with its device, and the handle of the program. -/
def onPort (factorial : BitVec 32 → BitVec 32) (x : Around) : Host FinePort where
  runFactorial p req :=
    let (f, ret) := p.board.runFactorial factorial req.input x.first
    ({ p with board := f }, ret)
  runDmaTest p :=
    let (f, ret) := p.board.runDmaTest factorial x.first x.second
    ({ p with board := f }, ret)
  state p := (Record.of p.board.board.sys.dev).state
  submit p req :=
    let c : Cmd := ⟨p.board.board.sys.calls, 0, req⟩
    let f := fineStep factorial p.board (.driver (.submit 0 req))
    ({ p with board := run (fineStep factorial) f (x.kicking ++ [.kick c]) },
      (eduIocSubmit p.board.board.sys.dev true req).2.2)
  pollCq p := (p.pollStep factorial, (eduIocPollCq p.board.board.sys.dev true).2)
  fdget _ := x.fdget
  setEventfd p ctx := { p with board := fineStep factorial p.board (.driver (.setEventfd ctx)) }
  ringsMapped p := p.handle.ringsMapped
  writeEntry := FinePort.write
  accepted p := { p with handle.sqTail := p.handle.sqTail + 1 }

section
variable (factorial : BitVec 32 → BitVec 32) (p : FinePort) (x : Around) {sp : Nat} {u : UserMem}

/-- The submit and the poll of the round trips are these, down to the bytes. -/
theorem submit_onPort (hmapped : Mapped u sp submitReq.size) (req : EduSubmitReq) :
    submit (onPort factorial x) p sp u req = p.ioctlSubmit factorial req x.kicking := by
  rw [submit_class hmapped]
  unfold FinePort.ioctlSubmit
  simp only [onPort]
  cases (eduIocSubmit p.board.board.sys.dev true req).2.2 with
  | ok => rfl
  | error err => cases err <;> rfl

theorem poll_onPort (hmapped : Mapped u sp completionReq.size) :
    Method.pollCompletion.call (onPort factorial x) p sp u = (p.pollStep factorial, p.port.found) := by
  rw [call_pollCompletion hmapped]
  unfold Port.found EduDevice.pollCompletion
  simp only [onPort, FinePort.port]
  cases eduIocPollCq p.board.board.sys.dev true with
  | mk e ret =>
    cases ret with
    | ok => rfl
    | error err => cases err <;> rfl

/-- A call of a Python program, what goes on before and during it, and where the C++ class has its
local variable. -/
structure PyUse where
  call : PyCall
  before : List FineEvent
  around : Around
  sp : Nat
  u : UserMem
  mapped : Mapped u sp stackSize

namespace PyUse

def called (p : FinePort) (x : PyUse) : FinePort × PyResult :=
  x.call.run (onPort factorial x.around) (p.meanwhile factorial x.before) x.sp x.u

def meant (p : FinePort) (x : PyUse) : FinePort × PyResult :=
  x.call.meant (onPort factorial x.around) (p.meanwhile factorial x.before)

end PyUse

/-- **A Python program gets what it means**, call by call: through the shim, the class, the number of
the ioctl and the bytes on the stack, with its integers cut to the fields of the driver. -/
theorem python_program_speaks (xs : List PyUse) :
    trace (fun p x => (PyUse.called factorial p x).1) (PyUse.called factorial) p xs =
      trace (fun p x => (PyUse.meant factorial p x).1) (PyUse.meant factorial) p xs := by
  have hmeans : PyUse.called factorial = PyUse.meant factorial :=
    funext₂ fun _ x => call_means x.mapped x.call
  rw [hmeans]

end

/-- Nothing goes on inside the call, and all of the memory is mapped. -/
def pyUse (call : PyCall) (before : List FineEvent) : PyUse where
  call := call
  before := before
  around := ⟨⟨[], []⟩, ⟨[], []⟩, [], fun _ => .ok 0⟩
  sp := 0
  u := fun _ => some 0
  mapped := fun _ _ _ => rfl

/-- The tag and the opcode are too large for their fields, and come down to 7 and to 1. -/
theorem python_program_speaks_submit :
    let p : FinePort := ⟨.powered freshDev 0, ⟨false, 0⟩⟩
    let j := jobOf 0 ⟨0, 0, ⟨7, eduOpFactorial, 5⟩⟩
    let xs := [pyUse (.submit (65536 + 7) (256 + 1) 5) [],
      pyUse .pollCompletion [.finish j, .irqRead, .irqAck, .irqPost], pyUse .pollCompletion []]
    (trace (fun p x => (PyUse.called factorial32 p x).1) (PyUse.called factorial32) p xs).map
      Prod.snd = [.nothing, .completion ⟨7, 0, 120⟩, .nothing] := by
  intro p j xs
  exact (congrArg (List.map Prod.snd) (python_program_speaks factorial32 p xs)).trans (by decide)

end PcieDriver.Edu.Abi
