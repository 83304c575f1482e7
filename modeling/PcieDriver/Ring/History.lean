import PcieDriver.Base.Ledger
import PcieDriver.Base.Machine
import PcieDriver.Ring.Image

/-!
# What has happened since the last reset

A system is the device together with the commands it accepted and the completions it stored. Its
runs are those of a ledger with room for 64 commands: what the ledger holds says all there is to
say about the device.
-/

open Base

namespace PcieDriver.Ring

/-! ## The system -/

structure Sys where
  dev : ProtoPcieDev
  /-- The commands for which `PROTO_PCIE_IOC_SEND_CMD` returned 0. -/
  accepted : List ProtoPcieCommand
  /-- The entries that `proto_sim_store_completion` wrote. -/
  stored : List ProtoSimCompletionEntry

/-- How many commands were processed. -/
def Sys.processed (s : Sys) : Nat := s.stored.length

def Sys.unprocessed (s : Sys) : List ProtoPcieCommand := s.accepted.drop s.processed

/-- What the rounds of the loop store, read back from the ring after each one. -/
def drainStores : Nat → ProtoPcieDev → List ProtoSimCompletionEntry
  | 0, _ => []
  | rounds + 1, d =>
    if 0 < d.cmdPending then
      (protoSimProcessOne d).compRing d.compTail.toNat :: drainStores rounds (protoSimProcessOne d)
    else []

/-- What the ioctl returns. In simulated mode `REG_STATUS` is not read, so that 0 stands for it. -/
def Sys.reply (s : Sys) (io : Ioctl) : Except Errno Reply := (protoIoctl s.dev 0 io).2.2

def Sys.acceptedAfter (s : Sys) : Ioctl → List ProtoPcieCommand
  | .sendCmd copied c =>
    match s.reply (.sendCmd copied c) with
    | .ok _ => s.accepted ++ [c]
    | .error _ => s.accepted
  | .reset => []
  | _ => s.accepted

def Sys.storedAfter (s : Sys) : Ioctl → List ProtoSimCompletionEntry
  | .processPending => s.stored ++ drainStores s.dev.cmdPending.toNat s.dev
  | .reset => []
  | _ => s.stored

def step (s : Sys) (io : Ioctl) : Sys where
  dev := (protoIoctl s.dev 0 io).1
  accepted := s.acceptedAfter io
  stored := s.storedAfter io

/-- Right after `proto_sim_probe`. -/
def probed : Sys := ⟨protoSimProbe, [], []⟩

theorem status_unread {d : ProtoPcieDev} (h : d.simulated = true) (status : BitVec 32) (io : Ioctl) :
    protoIoctl d status io = protoIoctl d 0 io := by
  cases io <;> simp [protoIoctl, protoFinishReset, h]

/-! ## The ledger -/

abbrev CmdLedger := Ledger ProtoPcieCommand 64

/-- What an ioctl means to the ledger. -/
def ledgerOp : Ioctl → LedgerOp ProtoPcieCommand
  | .sendCmd true c => .add c
  | .processPending => .finish
  | .reset => .clear
  | _ => .skip

def deviceOf (l : CmdLedger) : ProtoPcieDev := image l.done l.waiting (statusOf l.done l.waiting)

def sysOf (l : CmdLedger) : Sys := ⟨deviceOf l, l.all, l.done.mapIdx completionOf⟩

/-- The ledger after some ioctls. -/
def ledgerAfter (es : List Ioctl) : CmdLedger := run Ledger.next Ledger.empty (es.map ledgerOp)

/-! ### What the indices say about the ledger -/

@[simp] theorem dev_sysOf (l : CmdLedger) : (sysOf l).dev = deviceOf l := rfl

@[simp] theorem processed_sysOf (l : CmdLedger) : (sysOf l).processed = l.done.length :=
  List.length_mapIdx

@[simp] theorem unprocessed_sysOf (l : CmdLedger) : (sysOf l).unprocessed = l.waiting := by
  rw [Sys.unprocessed, processed_sysOf]
  exact l.drop_all

@[simp] theorem toNat_ringEntries (l : CmdLedger) : (deviceOf l).ringEntries.toNat = 64 := rfl

@[simp] theorem toNat_cmdHead (l : CmdLedger) :
    (deviceOf l).cmdHead.toNat = l.done.length % 64 :=
  toNat_index _

@[simp] theorem toNat_cmdTail (l : CmdLedger) : (deviceOf l).cmdTail.toNat = l.all.length % 64 :=
  toNat_index _

@[simp] theorem toNat_compTail (l : CmdLedger) :
    (deviceOf l).compTail.toNat = l.done.length % 64 :=
  toNat_index _

@[simp] theorem toNat_cmdPending (l : CmdLedger) : (deviceOf l).cmdPending.toNat = l.waiting.length := by
  have hroom := l.room
  rw [deviceOf, image, BitVec.toNat_ofNat]
  omega

/-! ### What each operation does to the device -/

section
variable {l : CmdLedger}

theorem statusOf_waiting {done waiting : List ProtoPcieCommand} (h : waiting ≠ []) :
    statusOf done waiting = statusReady :=
  if_neg fun hall => h hall.2

theorem statusOf_finish (done waiting : List ProtoPcieCommand) :
    (if waiting = [] then statusOf done waiting else statusReady ||| statusDone) =
      statusOf (done ++ waiting) [] := by
  split_ifs with h
  · rw [h, List.append_nil]
  · rw [statusOf, if_pos ⟨fun hall => h (List.append_eq_nil_iff.mp hall).2, rfl⟩]

theorem device_send (c : ProtoPcieCommand) :
    protoSimEnqueueCommand (deviceOf l) c =
      (deviceOf (l.add c), if l.waiting.length < 64 then .ok () else .error .enospc) := by
  by_cases hroom : l.waiting.length < 64
  · rw [deviceOf, enqueue_room hroom, if_pos hroom, Ledger.add, dif_pos hroom, deviceOf,
      statusOf_waiting (by simp)]
  · rw [deviceOf, enqueue_full (Ledger.full_of_not_lt hroom), if_neg hroom,
      Ledger.add_full hroom, deviceOf]

theorem device_process : protoSimProcessPending (deviceOf l) = deviceOf l.finish := by
  rw [deviceOf, process_pending l.room, statusOf_finish]
  rfl

theorem device_reset (status : BitVec 32) :
    protoFinishReset (deviceOf l) status = (deviceOf Ledger.empty, []) :=
  finish_reset status

theorem device_probe : protoSimProbe = deviceOf Ledger.empty := sim_probe

theorem stored_one {done waiting : List ProtoPcieCommand} {status : BitVec 32} (c : ProtoPcieCommand)
    (h : waiting.length < 64) :
    (protoSimProcessOne (image done (c :: waiting) status)).compRing
      (image done (c :: waiting) status).compTail.toNat = completionOf done.length c := by
  have htail : (image done (c :: waiting) status).compTail.toNat = done.length % 64 :=
    toNat_index _
  have hring : (image (done ++ [c]) waiting (statusReady ||| statusDone)).compRing =
      cells 64 zeroCompletion ((done ++ [c]).mapIdx completionOf) := rfl
  rw [process_one c h, htail, hring, cells_getElem _ (by simp) (by simp)]
  simp

theorem stores_image (rounds : Nat) {done waiting : List ProtoPcieCommand} {status : BitVec 32}
    (hrounds : waiting.length ≤ rounds) (hroom : waiting.length ≤ 64) :
    done.mapIdx completionOf ++ drainStores rounds (image done waiting status) =
      (done ++ waiting).mapIdx completionOf := by
  induction waiting generalizing rounds done status with
  | nil =>
    rw [List.append_nil]
    cases rounds <;> exact List.append_nil _
  | cons c waiting ih =>
    obtain ⟨rounds, rfl⟩ := Nat.exists_eq_add_one_of_ne_zero (Nat.ne_zero_of_lt hrounds)
    rw [List.length_cons] at hrounds hroom
    have hnext : (done ++ [c]).mapIdx completionOf ++
        drainStores rounds (image (done ++ [c]) waiting (statusReady ||| statusDone)) =
          (done ++ [c] ++ waiting).mapIdx completionOf := ih rounds (by omega) (by omega)
    rw [List.mapIdx_concat, List.append_assoc, List.singleton_append, List.append_assoc,
      List.singleton_append] at hnext
    rw [drainStores, if_pos (pending_pos c hroom), stored_one c hroom, process_one c hroom, hnext]

theorem device_stores :
    l.done.mapIdx completionOf ++ drainStores (deviceOf l).cmdPending.toNat (deviceOf l) =
      l.all.mapIdx completionOf := by
  exact stores_image _ (toNat_cmdPending l).ge l.room

theorem next_done {io : Ioctl} (hloop : io ≠ .processPending) (hreset : io ≠ .reset) :
    (l.next (ledgerOp io)).done = l.done := by
  cases io with
  | processPending => contradiction
  | reset => contradiction
  | sendCmd copied c =>
    cases copied with
    | false => rfl
    | true => exact l.add_done c
  | getInfo | getStatus | getRingState | other => rfl

/-! ### The system and the ledger take the same steps -/

theorem reply_send (c : ProtoPcieCommand) :
    (sysOf l).reply (.sendCmd true c) =
      if l.waiting.length < 64 then .ok .done else .error .enospc := by
  have hsend : (sysOf l).reply (.sendCmd true c) =
      (protoSimEnqueueCommand (deviceOf l) c).2.map fun _ => .done := rfl
  rw [hsend, device_send]
  split_ifs <;> rfl

theorem step_sysOf (l : CmdLedger) (io : Ioctl) :
    step (sysOf l) io = sysOf (l.next (ledgerOp io)) := by
  cases io with
  | getInfo copied => rfl
  | reset => exact congrArg (fun d => Sys.mk d [] []) (congrArg Prod.fst (device_reset 0))
  | sendCmd copied c =>
    cases copied with
    | false => rfl
    | true =>
      have hdev : (protoIoctl (deviceOf l) 0 (.sendCmd true c)).1 = deviceOf (l.add c) :=
        congrArg Prod.fst (device_send c)
      by_cases hroom : l.waiting.length < 64
      · have hreply := (reply_send c).trans (if_pos hroom)
        simp only [step, Sys.acceptedAfter, Sys.storedAfter, hreply]
        simp only [sysOf, hdev, ledgerOp, Ledger.next, Ledger.add_room hroom, Ledger.add_done]
      · have hreply := (reply_send c).trans (if_neg hroom)
        simp only [step, Sys.acceptedAfter, Sys.storedAfter, hreply]
        simp only [sysOf, hdev, ledgerOp, Ledger.next, Ledger.add_full hroom]
  | processPending =>
    have hdev : (protoIoctl (deviceOf l) 0 .processPending).1 = deviceOf l.finish :=
      device_process
    simp only [step, Sys.acceptedAfter, Sys.storedAfter, sysOf, hdev, device_stores, ledgerOp,
      Ledger.next, Ledger.all_finish]
    rfl
  | getStatus copied => rfl
  | getRingState copied => rfl
  | other => rfl

theorem probed_eq : probed = sysOf Ledger.empty := by
  rw [probed, device_probe]
  rfl

/-- **The ledger of a run says what the system is.** -/
theorem run_sysOf (es : List Ioctl) : run step probed es = sysOf (ledgerAfter es) := by
  rw [probed_eq]
  exact run_image step_sysOf _ es

end

end PcieDriver.Ring
