import PcieDriver.Ring.History

/-!
# From the vector to the buffer

`class ProtoPcie` of the ring driver's `userspace/proto_pcie.cpp` over the driver. A payload is cut
to size twice and copied three times before it gets to `dma_buf`.
-/

open Base

namespace PcieDriver.Ring

/-! ## The class -/

def strerror : Errno → String
  | .enospc => "No space left on device"
  | .efault => "Bad address"
  | .enotty => "Inappropriate ioctl for device"
  | .enotsupp => "Unknown error 524"

/-- What the class makes of a return code. An error is the text that it throws. -/
def ioctlResult (what : String) : Except Errno Reply → Except String Unit
  | .ok _ => .ok ()
  | .error err => .error ("ioctl(" ++ what ++ ") failed: " ++ strerror err)

namespace ProtoPcie

/-- The `length` that `send_command` sets. -/
def payloadLength (payload : List Byte) : Nat :=
  if protoPcieMaxPayload < payload.length then protoPcieMaxPayload else payload.length

theorem payloadLength_eq (payload : List Byte) :
    payloadLength payload = min payload.length protoPcieMaxPayload := by
  unfold payloadLength
  split_ifs <;> omega

theorem take_payload (payload : List Byte) :
    payload.take (payloadLength payload) = payload.take protoPcieMaxPayload := by
  unfold payloadLength
  split_ifs with h
  · rfl
  · rw [List.take_length, List.take_of_length_le (by omega)]

theorem take_payload_length (payload : List Byte) :
    (payload.take (payloadLength payload)).length = payloadLength payload := by
  rw [List.length_take, payloadLength_eq]
  omega

theorem payloadLength_le (payload : List Byte) : payloadLength payload ≤ protoPcieMaxPayload :=
  payloadLength_eq payload ▸ min_le_right _ _

theorem take_payload_le (payload : List Byte) :
    (payload.take (payloadLength payload)).length ≤ protoPcieMaxPayload := by
  rw [take_payload_length]
  exact payloadLength_le payload

/-- The structure starts as zeros. -/
def command (opcode : BitVec 32) (payload : List Byte) : ProtoPcieCommand where
  opcode := opcode
  length := BitVec.ofNat 32 (payloadLength payload)
  payload := ⟨(Mem.pad protoPcieMaxPayload (payload.take (payloadLength payload))).toArray, by
    rw [List.size_toArray, Mem.pad_length (take_payload_le payload)]⟩

def sendCommand (s : Sys) (opcode : BitVec 32) (payload : List Byte) : Sys × Except String Unit :=
  (step s (.sendCmd true (command opcode payload)),
    ioctlResult "SEND_CMD" (s.reply (.sendCmd true (command opcode payload))))

def processPending (s : Sys) : Sys × Except String Unit :=
  (step s .processPending, ioctlResult "PROCESS_PENDING" (s.reply .processPending))

end ProtoPcie

/-! ## The driver makes the same cut -/

section
variable (opcode : BitVec 32) (payload : List Byte)

theorem cmdLength_command :
    (cmdLength (ProtoPcie.command opcode payload)).toNat =
      min payload.length protoPcieMaxPayload := by
  have hle := ProtoPcie.payloadLength_le payload
  have hlength : (ProtoPcie.command opcode payload).length.toNat =
      ProtoPcie.payloadLength payload := by
    rw [ProtoPcie.command, BitVec.toNat_ofNat]
    unfold protoPcieMaxPayload at hle
    omega
  rw [cmdLength, toNat_minU32, hlength, ← ProtoPcie.payloadLength_eq]
  exact min_eq_left hle

theorem cmdBytes_command :
    cmdBytes (ProtoPcie.command opcode payload) = payload.take protoPcieMaxPayload := by
  have hbytes : (ProtoPcie.command opcode payload).payload.toList =
      Mem.pad protoPcieMaxPayload (payload.take (ProtoPcie.payloadLength payload)) := rfl
  have htake : (Mem.pad protoPcieMaxPayload (payload.take (ProtoPcie.payloadLength payload))).take
      (ProtoPcie.payloadLength payload) = payload.take (ProtoPcie.payloadLength payload) := by
    have htake := Mem.take_pad (n := protoPcieMaxPayload)
      (payload.take (ProtoPcie.payloadLength payload))
    rwa [ProtoPcie.take_payload_length] at htake
  rw [cmdBytes, hbytes, cmdLength_command, ← ProtoPcie.payloadLength_eq, htake,
    ProtoPcie.take_payload]

end

/-! ## What is left in the buffer -/

structure Send where
  opcode : BitVec 32
  payload : List Byte
  deriving DecidableEq

def Send.command (send : Send) : ProtoPcieCommand := ProtoPcie.command send.opcode send.payload

def sendOne (s : Sys) (send : Send) : Sys := (ProtoPcie.sendCommand s send.opcode send.payload).1

/-- Those of the sends that do not throw. -/
def accepted (s : Sys) : List Send → List Send
  | [] => []
  | send :: rest =>
    match (ProtoPcie.sendCommand s send.opcode send.payload).2 with
    | .ok () => send :: accepted (sendOne s send) rest
    | .error _ => accepted (sendOne s send) rest

section
variable {l : CmdLedger}

theorem sendOne_sysOf (l : CmdLedger) (send : Send) :
    sendOne (sysOf l) send = sysOf (l.add send.command) :=
  step_sysOf l _

theorem accepted_room (hroom : l.waiting.length < 64) (send : Send) (rest : List Send) :
    accepted (sysOf l) (send :: rest) = send :: accepted (sysOf (l.add send.command)) rest := by
  have hresult : (ProtoPcie.sendCommand (sysOf l) send.opcode send.payload).2 = .ok () := by
    rw [ProtoPcie.sendCommand, reply_send, if_pos hroom]
    rfl
  rw [accepted, hresult, sendOne_sysOf]

theorem accepted_full (hfull : ¬ l.waiting.length < 64) (send : Send) (rest : List Send) :
    accepted (sysOf l) (send :: rest) = accepted (sysOf l) rest := by
  have hresult : (ProtoPcie.sendCommand (sysOf l) send.opcode send.payload).2 =
      .error "ioctl(SEND_CMD) failed: No space left on device" := by
    rw [ProtoPcie.sendCommand, reply_send, if_neg hfull]
    rfl
  rw [accepted, hresult, sendOne_sysOf, Ledger.add_full hfull]

theorem sends_sysOf (sends : List Send) (l : CmdLedger) :
    ∃ l' : CmdLedger, run sendOne (sysOf l) sends = sysOf l' ∧
      l'.all = l.all ++ (accepted (sysOf l) sends).map Send.command := by
  induction sends generalizing l with
  | nil => exact ⟨l, rfl, (List.append_nil _).symm⟩
  | cons send rest ih =>
    obtain ⟨l', hrun, hall⟩ := ih (l.add send.command)
    refine ⟨l', by rw [run_cons, sendOne_sysOf, hrun], ?_⟩
    by_cases hroom : l.waiting.length < 64
    · rw [hall, Ledger.add_room hroom, accepted_room hroom, List.map_cons, List.append_assoc,
        List.singleton_append]
    · rw [hall, Ledger.add_full hroom, accepted_full hroom]

theorem dmaOf_get (c : ProtoPcieCommand) :
    (dmaOf (some c)).get 0 4096 = Mem.pad 4096 (cmdBytes c) := by
  have hget := Mem.get_put_same Mem.zero 0 (Mem.pad 4096 (cmdBytes c))
  rwa [padded_length] at hget

end

/-- The buffer and the report are those of the last of the sends. -/
structure Delivered (d : ProtoPcieDev) (last : Send) : Prop where
  buffer : d.dmaBuf.get 0 4096 = last.payload.take 256 ++
    List.replicate (4096 - (last.payload.take 256).length) 0
  opcode : d.lastOpcode = last.opcode
  length : d.lastLength.toNat = min last.payload.length 256

theorem delivered_finish {l : CmdLedger} {last : Send} (h : l.all.getLast? = some last.command) :
    Delivered (deviceOf l.finish) last where
  buffer := by
    have hbuf : (deviceOf l.finish).dmaBuf = dmaOf l.all.getLast? := rfl
    rw [hbuf, h, dmaOf_get, Send.command, cmdBytes_command]
    rfl
  opcode := by
    have hopcode : (deviceOf l.finish).lastOpcode =
        l.all.getLast?.elim 0 ProtoPcieCommand.opcode := rfl
    rw [hopcode, h]
    rfl
  length := by
    have hlength : (deviceOf l.finish).lastLength = l.all.getLast?.elim 0 cmdLength := rfl
    rw [hlength, h]
    exact cmdLength_command last.opcode last.payload

/-- **A payload gets to the buffer whole, and alone**: with a free slot, the send and any further
ones are followed by a call of the loop, and the buffer holds the last one accepted and zeros. -/
theorem payload_end_to_end (es : List Ioctl) (send : Send) (more : List Send)
    (hroom : (run step probed es).dev.cmdPending < (run step probed es).dev.ringEntries) :
    let s := run step probed es
    (ProtoPcie.sendCommand s send.opcode send.payload).2 = .ok () ∧
      ∃ last, (accepted s (send :: more)).getLast? = some last ∧
        Delivered (ProtoPcie.processPending (run sendOne s (send :: more))).1.dev last := by
  intro s
  have hs : s = sysOf (ledgerAfter es) := run_sysOf es
  have hfree : (ledgerAfter es).waiting.length < 64 := by
    rw [run_sysOf, dev_sysOf, BitVec.lt_def, toNat_cmdPending, toNat_ringEntries] at hroom
    exact hroom
  rw [hs]
  refine ⟨by rw [ProtoPcie.sendCommand, reply_send, if_pos hfree]; rfl, ?_⟩
  obtain ⟨l', hrun, hall⟩ := sends_sysOf (send :: more) (ledgerAfter es)
  obtain ⟨last, hlast⟩ : ∃ last, (accepted (sysOf (ledgerAfter es)) (send :: more)).getLast? =
      some last := by
    rw [accepted_room hfree, List.getLast?_cons]
    exact ⟨_, rfl⟩
  refine ⟨last, hlast, ?_⟩
  have hprocess : (ProtoPcie.processPending (sysOf l')).1 = sysOf l'.finish := step_sysOf l' _
  rw [hrun, hprocess]
  apply delivered_finish
  rw [hall, List.getLast?_append, List.getLast?_map, hlast]
  rfl

/-- A payload that is too long, and then a short one: no byte of the first is left. -/
theorem payload_end_to_end_short :
    let sends : List Send := [⟨1, List.replicate 300 7⟩, ⟨2, [1, 2, 3]⟩]
    Delivered (ProtoPcie.processPending (run sendOne probed sends)).1.dev ⟨2, [1, 2, 3]⟩ := by
  intro sends
  obtain ⟨-, last, hlast, hdelivered⟩ :=
    payload_end_to_end [] ⟨1, List.replicate 300 7⟩ [⟨2, [1, 2, 3]⟩] (by decide)
  have hboth : accepted (run step probed []) sends = sends := by
    rw [run_nil, probed_eq, accepted_room (by decide), accepted_room (by decide)]
    rfl
  have hsame : some last = some ⟨2, [1, 2, 3]⟩ := hlast.symm.trans (congrArg List.getLast? hboth)
  rw [← Option.some.inj hsame]
  exact hdelivered

end PcieDriver.Ring
