import PcieDriver.Base.Bounded
import PcieDriver.Ring.History

/-!
# What is in a slot, and how far the copies reach

No copy of the simulated mode checks its range. Below the same functions check every range against
what `proto_sim_probe` allocated, and have no result when one does not fit. That case never comes.
-/

open Base

namespace PcieDriver.Ring

/-! ## The functions on blocks with an end -/

/-- The entries of `cmd_ring` and of `comp_ring`. -/
def ringSize : Nat := protoPcieSimRingEntries.toNat

def cmdPayloadsSize : Nat := ringSize * protoPcieMaxPayload

def dmaBufSize : Nat := 4096

def boundedChecksum (buf : List Byte) (len : BitVec 32) : Option (BitVec 32) :=
  foldIn (fun sum b => sum + b.setWidth 32) 0 buf len.toNat

def boundedStoreCompletion (d : ProtoPcieDev) (opcode status length seqno : BitVec 32) :
    Option ProtoPcieDev := do
  let compRing ← setIn ringSize d.compRing d.compTail.toNat
    ⟨opcode, status, length, seqno, List.replicate protoSimPayloadPreview 0⟩
  some { d with
    compRing
    compTail := (d.compTail + 1) % d.ringEntries
    compPending := if d.compPending < d.ringEntries then d.compPending + 1 else d.compPending }

def boundedEnqueueCommand (d : ProtoPcieDev) (cmdbuf : ProtoPcieCommand) :
    Option (ProtoPcieDev × Except Errno Unit) :=
  if d.ringEntries ≤ d.cmdPending then some (d, .error .enospc)
  else do
    let slot := d.cmdTail.toNat
    let n := minU32 cmdbuf.length (BitVec.ofNat 32 protoPcieMaxPayload)
    let payload := cmdbuf.payload.toList
    let checksum ← boundedChecksum payload n
    let shown ← takeIn payload (minU32 n (BitVec.ofNat 32 protoSimPayloadPreview)).toNat
    let payloadPreview ← Mem.padIn protoSimPayloadPreview shown
    let cmdRing ← setIn ringSize d.cmdRing slot
      { opcode := cmdbuf.opcode, length := n, seqno := d.nextSeqno, checksum, payloadPreview }
    let cleared ← d.cmdPayloads.clearIn cmdPayloadsSize (slot * protoPcieMaxPayload) protoPcieMaxPayload
    let bytes ← takeIn payload n.toNat
    let cmdPayloads ← cleared.putIn cmdPayloadsSize (slot * protoPcieMaxPayload) bytes
    some ({ d with
      nextSeqno := d.nextSeqno + 1
      cmdRing
      cmdPayloads
      cmdTail := (d.cmdTail + 1) % d.ringEntries
      cmdPending := d.cmdPending + 1
      lastStatus := statusReady }, .ok ())

def boundedProcessOne (d : ProtoPcieDev) : Option ProtoPcieDev := do
  let head := d.cmdHead.toNat
  let entry ← readIn ringSize d.cmdRing head
  let n := entry.length
  let copied := minU32 n (d.dmaLen.setWidth 32)
  let cleared ← d.dmaBuf.clearIn dmaBufSize 0 d.dmaLen.toNat
  let bytes ← d.cmdPayloads.getIn cmdPayloadsSize (head * protoPcieMaxPayload) copied.toNat
  let dmaBuf ← cleared.putIn dmaBufSize 0 bytes
  let d := { d with
    dmaBuf
    lastOpcode := entry.opcode
    lastLength := n
    lastStatus := statusReady ||| statusDone
    completedTotal := d.completedTotal + 1 }
  let d ← boundedStoreCompletion d entry.opcode d.lastStatus n entry.seqno
  some { d with
    cmdHead := (d.cmdHead + 1) % d.ringEntries
    cmdPending := d.cmdPending - 1 }

def boundedDrain : Nat → ProtoPcieDev → Option ProtoPcieDev
  | 0, d => some d
  | rounds + 1, d => if 0 < d.cmdPending then boundedProcessOne d >>= boundedDrain rounds else some d

def boundedProcessPending (d : ProtoPcieDev) : Option ProtoPcieDev :=
  boundedDrain d.cmdPending.toNat d

/-! ## What keeps the ranges inside -/

structure InBounds (d : ProtoPcieDev) : Prop where
  simulated : d.simulated = true
  entries : d.ringEntries = protoPcieSimRingEntries
  dmaLen : d.dmaLen = 4096
  head : d.cmdHead.toNat < ringSize
  tail : d.cmdTail.toNat < ringSize
  compTail : d.compTail.toNat < ringSize
  lengths : ∀ slot, (d.cmdRing slot).length.toNat ≤ protoPcieMaxPayload

theorem next_index (i : BitVec 32) : ((i + 1) % protoPcieSimRingEntries).toNat < ringSize := by
  rw [BitVec.toNat_umod]
  exact Nat.mod_lt _ (by decide)

theorem index_zero : (0 : BitVec 32).toNat < ringSize := by decide

theorem slot_fits {slot n : Nat} (hslot : slot < ringSize) (hn : n ≤ protoPcieMaxPayload) :
    slot * protoPcieMaxPayload + n ≤ cmdPayloadsSize := by
  have hnext : (slot + 1) * protoPcieMaxPayload ≤ ringSize * protoPcieMaxPayload :=
    Nat.mul_le_mul_right _ hslot
  rw [Nat.succ_mul] at hnext
  unfold cmdPayloadsSize
  omega

section
variable {d : ProtoPcieDev}

theorem clear_rings_inBounds (hsim : d.simulated = true)
    (hentries : d.ringEntries = protoPcieSimRingEntries) (hdma : d.dmaLen = 4096)
    (hlengths : ∀ slot, (d.cmdRing slot).length.toNat ≤ protoPcieMaxPayload) :
    InBounds (protoSimClearRings d) where
  simulated := hsim
  entries := hentries
  dmaLen := hdma
  head := index_zero
  tail := index_zero
  compTail := index_zero
  lengths := by
    intro slot
    show (clearEntries zeroEntry d.ringEntries.toNat d.cmdRing slot).length.toNat ≤ _
    unfold clearEntries
    split_ifs
    · exact Nat.zero_le _
    · exact hlengths slot

theorem finish_reset_inBounds (h : InBounds d) (status : BitVec 32) :
    InBounds (protoFinishReset d status).1 := by
  rw [protoFinishReset, if_pos h.simulated]
  have hclear := @clear_rings_inBounds { d with dmaBuf := d.dmaBuf.clear 0 d.dmaLen.toNat }
    h.simulated h.entries h.dmaLen h.lengths
  exact ⟨hclear.simulated, hclear.entries, hclear.dmaLen, hclear.head, hclear.tail,
    hclear.compTail, hclear.lengths⟩

theorem enqueue_inBounds (h : InBounds d) (c : ProtoPcieCommand) :
    InBounds (protoSimEnqueueCommand d c).1 := by
  unfold protoSimEnqueueCommand
  split_ifs
  · exact h
  · refine ⟨h.simulated, h.entries, h.dmaLen, h.head, ?_, h.compTail, ?_⟩
    · show ((d.cmdTail + 1) % d.ringEntries).toNat < ringSize
      rw [h.entries]
      exact next_index _
    · -- The slot that was written has a clipped length, and the others are as they were.
      intro slot
      simp only [Function.update_apply]
      split_ifs
      · exact cmdLength_le c
      · exact h.lengths slot

theorem process_one_inBounds (h : InBounds d) : InBounds (protoSimProcessOne d) := by
  simp only [protoSimProcessOne, protoSimStoreCompletion, h.entries]
  exact ⟨h.simulated, rfl, h.dmaLen, next_index _, h.tail, next_index _, h.lengths⟩

theorem drain_inBounds (rounds : Nat) (h : InBounds d) : InBounds (protoSimDrain rounds d) := by
  induction rounds generalizing d with
  | zero => exact h
  | succ rounds ih =>
    unfold protoSimDrain
    split_ifs
    · exact ih (process_one_inBounds h)
    · exact h

theorem ioctl_inBounds (h : InBounds d) (status : BitVec 32) (io : Ioctl) :
    InBounds (protoIoctl d status io).1 := by
  cases io with
  | reset => exact finish_reset_inBounds h status
  | sendCmd copied c =>
    cases copied with
    | false => exact h
    | true =>
      simp only [protoIoctl, h.simulated]
      exact enqueue_inBounds h c
  | processPending =>
    simp only [protoIoctl, h.simulated, if_true]
    exact drain_inBounds _ h
  | getRingState copied =>
    simp only [protoIoctl, h.simulated]
    exact h
  | getInfo | getStatus | other => exact h

theorem probe_inBounds : InBounds protoSimProbe :=
  clear_rings_inBounds rfl rfl rfl fun _ => Nat.zero_le _

theorem run_inBounds (es : List Ioctl) : InBounds (run step probed es).dev :=
  run_inv (I := fun s : Sys => InBounds s.dev) (fun _ io h => ioctl_inBounds h 0 io) probe_inBounds

/-! ## Every range is inside -/

theorem checksum_bounded {buf : List Byte} {len : BitVec 32} (h : len.toNat ≤ buf.length) :
    boundedChecksum buf len = some (protoChecksum buf len) := foldIn_eq _ _ h

theorem store_bounded (h : d.compTail.toNat < ringSize) (opcode status length seqno : BitVec 32) :
    boundedStoreCompletion d opcode status length seqno =
      some (protoSimStoreCompletion d opcode status length seqno) := by
  rw [boundedStoreCompletion, setIn_eq h]
  rfl

theorem enqueue_bounded (h : InBounds d) (c : ProtoPcieCommand) :
    boundedEnqueueCommand d c = some (protoSimEnqueueCommand d c) := by
  set n := cmdLength c with hn
  have hpayload : n.toNat ≤ c.payload.toList.length := by
    rw [Vector.length_toList]
    exact cmdLength_le c
  have hshown : (minU32 n (BitVec.ofNat 32 protoSimPayloadPreview)).toNat ≤
      c.payload.toList.length := by
    rw [toNat_minU32]
    exact (min_le_left _ _).trans hpayload
  have hpreview : (c.payload.toList.take
      (minU32 n (BitVec.ofNat 32 protoSimPayloadPreview)).toNat).length ≤ protoSimPayloadPreview := by
    rw [List.length_take, toNat_minU32]
    exact (min_le_left _ _).trans (min_le_right _ _)
  have hbytes : (c.payload.toList.take n.toNat).length ≤ protoPcieMaxPayload :=
    cmdBytes_length_le c
  rw [boundedEnqueueCommand, protoSimEnqueueCommand]
  split_ifs
  · rfl
  · rw [cmdLength] at hn
    simp only [← hn, checksum_bounded hpayload, takeIn_eq hshown, takeIn_eq hpayload,
      Mem.padIn_eq hpreview, setIn_eq h.tail, Mem.clearIn_eq _ (slot_fits h.tail le_rfl),
      Mem.putIn_eq _ (slot_fits h.tail hbytes), Option.bind_eq_bind, Option.bind_some]

theorem process_one_bounded (h : InBounds d) :
    boundedProcessOne d = some (protoSimProcessOne d) := by
  have hcopied : (minU32 (d.cmdRing d.cmdHead.toNat).length (d.dmaLen.setWidth 32)).toNat ≤
      protoPcieMaxPayload := by
    rw [toNat_minU32]
    exact (min_le_left _ _).trans (h.lengths _)
  have hdma : 0 + d.dmaLen.toNat ≤ dmaBufSize := by
    rw [h.dmaLen]
    decide
  have hbytes : 0 + (d.cmdPayloads.get (d.cmdHead.toNat * protoPcieMaxPayload)
      (minU32 (d.cmdRing d.cmdHead.toNat).length (d.dmaLen.setWidth 32)).toNat).length ≤
        dmaBufSize := by
    rw [Mem.get_length, Nat.zero_add]
    exact hcopied.trans (by decide)
  simp only [boundedProcessOne, readIn_eq h.head, Mem.clearIn_eq _ hdma,
    Mem.getIn_eq _ (slot_fits h.head hcopied), Mem.putIn_eq _ hbytes, Option.bind_eq_bind,
    Option.bind_some]
  rw [store_bounded]
  · rfl
  · exact h.compTail

theorem drain_bounded (rounds : Nat) (h : InBounds d) :
    boundedDrain rounds d = some (protoSimDrain rounds d) := by
  induction rounds generalizing d with
  | zero => rfl
  | succ rounds ih =>
    rw [boundedDrain, protoSimDrain]
    split_ifs
    · rw [process_one_bounded h, Option.bind_eq_bind, Option.bind_some,
        ih (process_one_inBounds h)]
    · rfl

end

/-! ## What is in a slot -/

/-- What goes with each other in a slot: the descriptor and the payload area. -/
structure SlotHolds (d : ProtoPcieDev) (slot : Nat) : Prop where
  length : (d.cmdRing slot).length.toNat ≤ protoPcieMaxPayload
  checksum : (d.cmdRing slot).checksum.toNat =
    ((d.cmdPayloads.get (slot * protoPcieMaxPayload) (d.cmdRing slot).length.toNat).map
      BitVec.toNat).sum
  preview : (d.cmdRing slot).payloadPreview =
    d.cmdPayloads.get (slot * protoPcieMaxPayload)
        (min (d.cmdRing slot).length.toNat protoSimPayloadPreview) ++
      List.replicate (protoSimPayloadPreview -
        min (d.cmdRing slot).length.toNat protoSimPayloadPreview) 0
  rest : d.cmdPayloads.get (slot * protoPcieMaxPayload + (d.cmdRing slot).length.toNat)
      (protoPcieMaxPayload - (d.cmdRing slot).length.toNat) =
    List.replicate (protoPcieMaxPayload - (d.cmdRing slot).length.toNat) 0

theorem slot_block {cs : List ProtoPcieCommand} {k : Nat} (hk : k < cs.length)
    (hkept : cs.length ≤ k + 64) :
    (payloadArea cs).get (k % 64 * protoPcieMaxPayload) protoPcieMaxPayload = slotBytes cs[k] := by
  have hcell : cells 64 (List.replicate protoPcieMaxPayload 0) (cs.map slotBytes) (k % 64) =
      slotBytes cs[k] := by
    rw [cells_getElem _ (by simpa using hk) (by simpa using hkept), List.getElem_map]
  have hfull := slotBytes_length cs[k]
  rw [payloadArea, Mem.get_flat _ (by decide) _ le_rfl (by rw [hcell, hfull]), hcell,
    List.take_of_length_le hfull.le]

theorem checksum_exact (c : ProtoPcieCommand) :
    (protoChecksum c.payload.toList (cmdLength c)).toNat = ((cmdBytes c).map BitVec.toNat).sum := by
  have hle := cmdBytes_length_le c
  unfold protoPcieMaxPayload at hle
  have hsum := toNat_sum_bytes (cmdBytes c) 0
    (by rw [show (0 : BitVec 32).toNat = 0 from rfl]; omega)
  rwa [show (0 : BitVec 32).toNat = 0 from rfl, Nat.zero_add] at hsum

/-- The preview is cut from the payload and not from the slot, where the same bytes are. -/
theorem preview_front (c : ProtoPcieCommand) :
    Mem.pad protoSimPayloadPreview
        (c.payload.toList.take
          (minU32 (cmdLength c) (BitVec.ofNat 32 protoSimPayloadPreview)).toNat) =
      (cmdBytes c).take (min (cmdBytes c).length protoSimPayloadPreview) ++
        List.replicate (protoSimPayloadPreview -
          min (cmdBytes c).length protoSimPayloadPreview) 0 := by
  have hshown : (minU32 (cmdLength c) (BitVec.ofNat 32 protoSimPayloadPreview)).toNat =
      min (cmdBytes c).length protoSimPayloadPreview := by
    rw [toNat_minU32, cmdBytes_length]
    rfl
  have hfront : c.payload.toList.take (min (cmdBytes c).length protoSimPayloadPreview) =
      (cmdBytes c).take (min (cmdBytes c).length protoSimPayloadPreview) := by
    have hle : min (cmdLength c).toNat protoSimPayloadPreview ≤ (cmdLength c).toNat :=
      min_le_left _ _
    rw [cmdBytes_length, cmdBytes, List.take_take, Nat.min_eq_left hle]
  rw [hshown, hfront, Mem.pad, List.length_take, Nat.min_eq_left (min_le_left _ _)]

theorem slot_holds {cs : List ProtoPcieCommand} {k : Nat} {d : ProtoPcieDev}
    (hring : d.cmdRing = cells 64 zeroEntry (cs.mapIdx entryOf))
    (harea : d.cmdPayloads = payloadArea cs)
    (hk : k < cs.length) (hkept : cs.length ≤ k + 64) : SlotHolds d (k % 64) := by
  have hentry : d.cmdRing (k % 64) = entryOf k cs[k] := by
    rw [hring]
    exact slot_entry hk hkept
  have hlength : (entryOf k cs[k]).length.toNat = (cmdBytes cs[k]).length :=
    (cmdBytes_length _).symm
  obtain ⟨hbytes, hrest⟩ := Mem.get_pad (cmdBytes_length_le cs[k]) (slot_block hk hkept)
  constructor
  · rw [hentry]
    exact cmdLength_le cs[k]
  · rw [hentry, harea, hlength, hbytes]
    exact checksum_exact cs[k]
  · rw [hentry, harea, hlength, ← Mem.take_get _ _ (min_le_left _ _), hbytes]
    exact preview_front cs[k]
  · rw [hentry, harea, hlength]
    exact hrest

theorem pending_slot (l : CmdLedger) {k : Nat} (hk : k < (deviceOf l).cmdPending.toNat) :
    SlotHolds (deviceOf l) (((deviceOf l).cmdHead.toNat + k) % (deviceOf l).ringEntries.toNat) := by
  have hroom := l.room
  have hall := l.all_length
  rw [toNat_cmdPending] at hk
  rw [toNat_cmdHead, toNat_ringEntries, Nat.mod_add_mod]
  have hlast : l.done.length + k < l.all.length := by omega
  have hkept : l.all.length ≤ l.done.length + k + 64 := by omega
  exact slot_holds rfl rfl hlast hkept

/-- **No copy leaves its block**: after any ioctls every pending slot is what its length says, and the
next command, the next drain and the next completion stay within what was allocated. -/
theorem copies_stay_inside (es : List Ioctl) :
    let d := (run step probed es).dev
    (∀ k < d.cmdPending.toNat,
        SlotHolds d ((d.cmdHead.toNat + k) % d.ringEntries.toNat)) ∧
      (∀ cmdbuf, boundedEnqueueCommand d cmdbuf = some (protoSimEnqueueCommand d cmdbuf)) ∧
      boundedProcessPending d = some (protoSimProcessPending d) ∧
      ∀ opcode status length seqno, boundedStoreCompletion d opcode status length seqno =
        some (protoSimStoreCompletion d opcode status length seqno) := by
  intro d
  have hin : InBounds d := run_inBounds es
  refine ⟨?_, enqueue_bounded hin, drain_bounded _ hin, store_bounded hin.compTail⟩
  have hdev : d = deviceOf (ledgerAfter es) := congrArg Sys.dev (run_sysOf es)
  rw [hdev]
  intro k hk
  exact pending_slot _ hk

end PcieDriver.Ring
