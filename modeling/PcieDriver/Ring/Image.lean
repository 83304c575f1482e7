import PcieDriver.Ring.Device

/-!
# The device that a history leads to

In simulated mode the whole device follows from the commands that were processed since the last
reset and those that wait. Each operation then has one lemma that says which history comes next.
-/

open Base

namespace PcieDriver.Ring

/-! ## What becomes of one command -/

def cmdLength (c : ProtoPcieCommand) : BitVec 32 :=
  minU32 c.length (BitVec.ofNat 32 protoPcieMaxPayload)

/-- The bytes of the payload that count. -/
def cmdBytes (c : ProtoPcieCommand) : List Byte := c.payload.toList.take (cmdLength c).toNat

/-- Command `k` since the reset, the first of which has number 0. -/
def seqnoOf (k : Nat) : BitVec 32 := BitVec.ofNat 32 (k + 1)

def entryOf (k : Nat) (c : ProtoPcieCommand) : ProtoSimRingEntry where
  opcode := c.opcode
  length := cmdLength c
  seqno := seqnoOf k
  checksum := protoChecksum c.payload.toList (cmdLength c)
  payloadPreview := Mem.pad protoSimPayloadPreview
    (c.payload.toList.take (minU32 (cmdLength c) (BitVec.ofNat 32 protoSimPayloadPreview)).toNat)

def completionOf (k : Nat) (c : ProtoPcieCommand) : ProtoSimCompletionEntry where
  opcode := c.opcode
  status := statusReady ||| statusDone
  length := cmdLength c
  seqno := seqnoOf k
  reserved := List.replicate protoSimPayloadPreview 0

def slotBytes (c : ProtoPcieCommand) : List Byte := Mem.pad protoPcieMaxPayload (cmdBytes c)

/-- `dma_buf` after the last command that was processed. -/
def dmaOf : Option ProtoPcieCommand → Mem
  | none => Mem.zero
  | some c => Mem.zero.put 0 (Mem.pad 4096 (cmdBytes c))

theorem toNat_minU32 (a b : BitVec 32) : (minU32 a b).toNat = min a.toNat b.toNat := by
  unfold minU32
  split_ifs with h
  · rw [BitVec.lt_def] at h
    omega
  · rw [BitVec.lt_def] at h
    omega

theorem cmdLength_le (c : ProtoPcieCommand) : (cmdLength c).toNat ≤ protoPcieMaxPayload := by
  rw [cmdLength, toNat_minU32]
  exact min_le_right _ _

theorem cmdBytes_length (c : ProtoPcieCommand) : (cmdBytes c).length = (cmdLength c).toNat := by
  rw [cmdBytes, List.length_take, Vector.length_toList]
  exact min_eq_left (cmdLength_le c)

theorem cmdBytes_length_le (c : ProtoPcieCommand) : (cmdBytes c).length ≤ protoPcieMaxPayload :=
  cmdBytes_length c ▸ cmdLength_le c

theorem slotBytes_length (c : ProtoPcieCommand) : (slotBytes c).length = protoPcieMaxPayload :=
  Mem.pad_length (cmdBytes_length_le c)

theorem take_slotBytes (c : ProtoPcieCommand) :
    (slotBytes c).take (cmdLength c).toNat = cmdBytes c := by
  rw [slotBytes, ← cmdBytes_length, Mem.take_pad]

/-! ## The image -/

/-- `cmd_payloads` after `cs` was accepted. -/
def payloadArea (cs : List ProtoPcieCommand) : Mem :=
  Mem.flat protoPcieMaxPayload
    (cells 64 (List.replicate protoPcieMaxPayload 0) (cs.map slotBytes))

/-- The device after `done` was processed and while `waiting` is in the command ring. -/
def image (done waiting : List ProtoPcieCommand) (status : BitVec 32) : ProtoPcieDev where
  simulated := true
  bar0Len := 0x1000
  irq := 0
  dmaBuf := dmaOf done.getLast?
  dmaHandle := 0
  dmaLen := 4096
  lastStatus := status
  ringEntries := protoPcieSimRingEntries
  ringEntrySize := protoPcieSimRingEntrySize
  cmdRing := cells 64 zeroEntry ((done ++ waiting).mapIdx entryOf)
  compRing := cells 64 zeroCompletion (done.mapIdx completionOf)
  cmdPayloads := payloadArea (done ++ waiting)
  cmdHead := BitVec.ofNat 32 (done.length % 64)
  cmdTail := BitVec.ofNat 32 ((done ++ waiting).length % 64)
  cmdPending := BitVec.ofNat 32 waiting.length
  compHead := 0
  compTail := BitVec.ofNat 32 (done.length % 64)
  compPending := BitVec.ofNat 32 (min done.length 64)
  completedTotal := BitVec.ofNat 32 done.length
  lastOpcode := done.getLast?.elim 0 ProtoPcieCommand.opcode
  lastLength := done.getLast?.elim 0 cmdLength
  nextSeqno := BitVec.ofNat 32 ((done ++ waiting).length + 1)

/-- READY, and DONE too once all that was accepted is processed. -/
def statusOf (done waiting : List ProtoPcieCommand) : BitVec 32 :=
  if done ≠ [] ∧ waiting = [] then statusReady ||| statusDone else statusReady

/-! ### Indices -/

theorem toNat_index (k : Nat) : (BitVec.ofNat 32 (k % 64)).toNat = k % 64 := by
  rw [BitVec.toNat_ofNat]
  omega

theorem index_next (k : Nat) :
    (BitVec.ofNat 32 (k % 64) + 1) % protoPcieSimRingEntries = BitVec.ofNat 32 ((k + 1) % 64) := by
  apply BitVec.eq_of_toNat_eq
  rw [BitVec.toNat_umod, BitVec.toNat_add, toNat_index, toNat_index,
    show (1 : BitVec 32).toNat = 1 from rfl, show protoPcieSimRingEntries.toNat = 64 from rfl]
  omega

theorem count_next (k : Nat) : BitVec.ofNat 32 k + 1 = BitVec.ofNat 32 (k + 1) := by
  rw [BitVec.ofNat_add]
  rfl

theorem count_prev (k : Nat) : BitVec.ofNat 32 (k + 1) - 1 = BitVec.ofNat 32 k := by
  rw [← count_next, BitVec.add_sub_cancel]

theorem pending_next (k : Nat) :
    (if BitVec.ofNat 32 (min k 64) < protoPcieSimRingEntries
      then BitVec.ofNat 32 (min k 64 + 1) else BitVec.ofNat 32 (min k 64)) =
        BitVec.ofNat 32 (min (k + 1) 64) := by
  have hsmall : BitVec.ofNat 32 (min k 64) < protoPcieSimRingEntries ↔ k < 64 := by
    rw [BitVec.lt_def, BitVec.toNat_ofNat, show protoPcieSimRingEntries.toNat = 64 from rfl]
    omega
  split_ifs with h <;> rw [hsmall] at h
  · rw [show min k 64 + 1 = min (k + 1) 64 by omega]
  · rw [show min k 64 = min (k + 1) 64 by omega]

/-! ### The buffers -/

theorem padded_length (c : ProtoPcieCommand) : (Mem.pad 4096 (cmdBytes c)).length = 4096 :=
  Mem.pad_length ((cmdBytes_length_le c).trans (by decide))

theorem dmaOf_clear (last : Option ProtoPcieCommand) : (dmaOf last).clear 0 4096 = Mem.zero := by
  cases last with
  | none => exact Mem.clear_zero 0 4096
  | some c =>
    have hlen : (Mem.pad 4096 (cmdBytes c)).length = (List.replicate 4096 (0 : Byte)).length := by
      rw [padded_length, List.length_replicate]
    rw [dmaOf, Mem.clear, Mem.put_put _ _ hlen]
    exact Mem.clear_zero 0 4096

theorem dmaOf_put (last : Option ProtoPcieCommand) (c : ProtoPcieCommand) :
    ((dmaOf last).clear 0 4096).put 0 (cmdBytes c) = dmaOf (some c) := by
  rw [dmaOf_clear, dmaOf, ← Mem.put_clear _ _ ((cmdBytes_length_le c).trans (by decide)),
    Mem.clear_zero]

theorem cmdRing_concat (cs : List ProtoPcieCommand) (c : ProtoPcieCommand) :
    Function.update (cells 64 zeroEntry (cs.mapIdx entryOf)) (cs.length % 64)
      (entryOf cs.length c) = cells 64 zeroEntry ((cs ++ [c]).mapIdx entryOf) := by
  rw [List.mapIdx_concat, cells_concat, List.length_mapIdx]

theorem compRing_concat (cs : List ProtoPcieCommand) (c : ProtoPcieCommand) :
    Function.update (cells 64 zeroCompletion (cs.mapIdx completionOf)) (cs.length % 64)
      (completionOf cs.length c) = cells 64 zeroCompletion ((cs ++ [c]).mapIdx completionOf) := by
  rw [List.mapIdx_concat, cells_concat, List.length_mapIdx]

theorem payloadArea_concat (cs : List ProtoPcieCommand) (c : ProtoPcieCommand) :
    ((payloadArea cs).clear (cs.length % 64 * protoPcieMaxPayload) protoPcieMaxPayload).put
      (cs.length % 64 * protoPcieMaxPayload) (cmdBytes c) = payloadArea (cs ++ [c]) := by
  rw [Mem.put_clear _ _ (cmdBytes_length_le c), ← slotBytes, payloadArea,
    Mem.flat_put _ (by decide) _ (slotBytes_length c), payloadArea, List.map_append,
    List.map_singleton, cells_concat, List.length_map]

/-! ### What the slots hold -/

section
variable {cs : List ProtoPcieCommand} {k : Nat} (hk : k < cs.length) (hkept : cs.length ≤ k + 64)
include hk hkept

theorem slot_entry : cells 64 zeroEntry (cs.mapIdx entryOf) (k % 64) = entryOf k cs[k] := by
  rw [cells_getElem _ (by simpa using hk) (by simpa using hkept), List.getElem_mapIdx]

theorem slot_payload :
    (payloadArea cs).get (k % 64 * protoPcieMaxPayload) (cmdLength cs[k]).toNat = cmdBytes cs[k] := by
  have hslot : cells 64 (List.replicate protoPcieMaxPayload 0) (cs.map slotBytes) (k % 64) =
      slotBytes cs[k] := by
    rw [cells_getElem _ (by simpa using hk) (by simpa using hkept), List.getElem_map]
  have hle := cmdLength_le cs[k]
  rw [payloadArea, Mem.get_flat _ (by decide) _ hle (by rwa [hslot, slotBytes_length]), hslot,
    take_slotBytes]

end

/-! ## The operations -/

section
variable {done waiting : List ProtoPcieCommand} {status : BitVec 32}

theorem enqueue_full (h : waiting.length = 64) (c : ProtoPcieCommand) :
    protoSimEnqueueCommand (image done waiting status) c =
      (image done waiting status, .error .enospc) := by
  rw [protoSimEnqueueCommand, if_pos]
  simp only [image, h]
  decide

theorem enqueue_room (h : waiting.length < 64) (c : ProtoPcieCommand) :
    protoSimEnqueueCommand (image done waiting status) c =
      (image done (waiting ++ [c]) statusReady, .ok ()) := by
  have hroom : ¬ (image done waiting status).ringEntries ≤ (image done waiting status).cmdPending := by
    rw [BitVec.le_def, image, BitVec.toNat_ofNat, show protoPcieSimRingEntries.toNat = 64 from rfl]
    omega
  have hring := cmdRing_concat (done ++ waiting) c
  have harea := payloadArea_concat (done ++ waiting) c
  simp only [entryOf, seqnoOf, cmdLength] at hring
  simp only [cmdBytes, cmdLength] at harea
  have hall : done ++ (waiting ++ [c]) = done ++ waiting ++ [c] := (List.append_assoc ..).symm
  rw [protoSimEnqueueCommand, if_neg hroom]
  simp only [image, hall]
  generalize done ++ waiting = cs at hring harea ⊢
  simp only [toNat_index, index_next, hring, harea]
  simp only [count_next, List.length_append, List.length_singleton]

theorem process_one (c : ProtoPcieCommand) (h : waiting.length < 64) :
    protoSimProcessOne (image done (c :: waiting) status) =
      image (done ++ [c]) waiting (statusReady ||| statusDone) := by
  have hlast : done.length < (done ++ c :: waiting).length := by simp
  have hkept : (done ++ c :: waiting).length ≤ done.length + 64 := by simp; omega
  have hc : (done ++ c :: waiting)[done.length] = c := by simp
  have hentry := slot_entry hlast hkept
  have hbytes := slot_payload hlast hkept
  rw [hc] at hentry hbytes
  have hcopied : (minU32 (cmdLength c) (BitVec.setWidth 32 (4096 : BitVec 64))).toNat =
      (cmdLength c).toNat := by
    rw [toNat_minU32]
    exact min_eq_left ((cmdLength_le c).trans (by decide))
  have hdma : ((dmaOf done.getLast?).clear 0 (4096 : BitVec 64).toNat).put 0 (cmdBytes c) =
      dmaOf (some c) := dmaOf_put _ c
  have hcomp := compRing_concat done c
  have hall : done ++ c :: waiting = done ++ [c] ++ waiting := by simp
  simp only [completionOf, seqnoOf] at hcomp
  simp only [protoSimProcessOne, protoSimStoreCompletion, image, toNat_index, index_next, hentry]
  simp only [entryOf, seqnoOf, hcopied, hbytes, hcomp]
  simp only [hall, hdma, count_next, count_prev, List.length_cons, List.length_nil, Nat.zero_add,
    List.length_append, List.getLast?_concat, Option.elim_some]
  congr 1
  exact pending_next _

theorem pending_pos (c : ProtoPcieCommand) (h : waiting.length < 64) :
    0 < (image done (c :: waiting) status).cmdPending := by
  rw [BitVec.lt_def, image, BitVec.toNat_ofNat, List.length_cons,
    show (0 : BitVec 32).toNat = 0 from rfl]
  omega

theorem drain_image (rounds : Nat) (hrounds : waiting.length ≤ rounds) (hroom : waiting.length ≤ 64) :
    protoSimDrain rounds (image done waiting status) =
      image (done ++ waiting) [] (if waiting = [] then status else statusReady ||| statusDone) := by
  induction waiting generalizing rounds done status with
  | nil =>
    rw [List.append_nil, if_pos rfl]
    cases rounds <;> rfl
  | cons c waiting ih =>
    obtain ⟨rounds, rfl⟩ := Nat.exists_eq_add_one_of_ne_zero (Nat.ne_zero_of_lt hrounds)
    rw [List.length_cons] at hrounds hroom
    rw [protoSimDrain, if_pos (pending_pos c hroom), process_one c hroom,
      ih rounds (by omega) (by omega), if_neg (List.cons_ne_nil c waiting), ite_self,
      List.append_assoc, List.singleton_append]

theorem process_pending (h : waiting.length ≤ 64) :
    protoSimProcessPending (image done waiting status) =
      image (done ++ waiting) [] (if waiting = [] then status else statusReady ||| statusDone) := by
  apply drain_image _ _ h
  rw [image, BitVec.toNat_ofNat]
  omega

theorem clearEntries_cells {α : Type} (z : α) (xs : List α) :
    clearEntries z 64 (cells 64 z xs) = fun _ => z := by
  funext i
  rw [clearEntries]
  split_ifs with hi
  · rfl
  · exact cells_unused (by decide) xs (by omega)

theorem payloadArea_clear (cs : List ProtoPcieCommand) :
    (payloadArea cs).clear 0 (64 * protoPcieMaxPayload) = Mem.zero := by
  rw [payloadArea]
  exact Mem.clear_flat _ (by decide) fun i hi => cells_unused (by decide) _ hi

theorem payloadArea_nil : payloadArea [] = Mem.zero := Mem.flat_zero _ _

theorem finish_reset (regStatus : BitVec 32) :
    protoFinishReset (image done waiting status) regStatus = (image [] [] statusReady, []) := by
  have hdma : (dmaOf done.getLast?).clear 0 (4096 : BitVec 64).toNat = Mem.zero := dmaOf_clear _
  have hcmd := clearEntries_cells zeroEntry ((done ++ waiting).mapIdx entryOf)
  have hcomp := clearEntries_cells zeroCompletion (done.mapIdx completionOf)
  have harea := payloadArea_clear (done ++ waiting)
  have hentries : protoPcieSimRingEntries.toNat = 64 := rfl
  simp only [protoFinishReset, protoSimClearRings, image, if_true, hentries, hdma, hcmd, hcomp,
    harea, payloadArea_nil, List.append_nil, List.mapIdx_nil, cells_nil]
  rfl

theorem sim_probe : protoSimProbe = image [] [] statusReady := by
  have hzero {α : Type} (z : α) : clearEntries z 64 (fun _ => z) = fun _ => z :=
    clearEntries_cells z []
  have hentries : protoPcieSimRingEntries.toNat = 64 := rfl
  simp only [protoSimProbe, protoSimClearRings, image, hentries, hzero, Mem.clear_zero,
    payloadArea_nil, List.append_nil, List.mapIdx_nil, cells_nil]
  rfl

end

end PcieDriver.Ring
