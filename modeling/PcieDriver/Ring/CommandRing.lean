import PcieDriver.Ring.History

/-!
# The command ring is a bounded queue

The descriptors and the payload area share their indices, and a count tells a full ring from an
empty one. Between them they hold what a queue with room for 64 commands would hold, and refuse what
it would refuse.
-/

open Base

namespace PcieDriver.Ring

/-- Descriptor and payload of the slot are those of the command that was accepted as number `k`,
from 1 on. -/
structure Carries (d : ProtoPcieDev) (slot : Nat) (c : ProtoPcieCommand) (k : Nat) : Prop where
  opcode : (d.cmdRing slot).opcode = c.opcode
  length : (d.cmdRing slot).length.toNat = min c.length.toNat protoPcieMaxPayload
  payload : d.cmdPayloads.get (slot * protoPcieMaxPayload) (min c.length.toNat protoPcieMaxPayload) =
    c.payload.toList.take (min c.length.toNat protoPcieMaxPayload)
  seqno : (d.cmdRing slot).seqno = BitVec.ofNat 32 k

/-- The ring is the queue of what was accepted and not processed yet. -/
structure CommandRing (s : Sys) : Prop where
  pending : s.dev.cmdPending.toNat = s.unprocessed.length
  slots : ∀ k (hk : k < s.unprocessed.length),
    Carries s.dev ((s.dev.cmdHead.toNat + k) % s.dev.ringEntries.toNat) s.unprocessed[k]
      (s.processed + k + 1)
  tail : s.dev.cmdTail = (s.dev.cmdHead + s.dev.cmdPending) % s.dev.ringEntries
  refused : ∀ status c, s.unprocessed.length = s.dev.ringEntries.toNat →
    protoIoctl s.dev status (.sendCmd true c) = (s.dev, [], .error .enospc)
  taken : ∀ status c, s.unprocessed.length ≠ s.dev.ringEntries.toNat →
    (protoIoctl s.dev status (.sendCmd true c)).2.2 = .ok .done

theorem carries_entry {cs : List ProtoPcieCommand} {k : Nat} {d : ProtoPcieDev}
    (hring : d.cmdRing = cells 64 zeroEntry (cs.mapIdx entryOf))
    (harea : d.cmdPayloads = payloadArea cs)
    (hk : k < cs.length) (hkept : cs.length ≤ k + 64) : Carries d (k % 64) cs[k] (k + 1) := by
  have hentry := slot_entry hk hkept
  have hlength : (cmdLength cs[k]).toNat = min cs[k].length.toNat protoPcieMaxPayload :=
    toNat_minU32 _ _
  have hpayload := slot_payload hk hkept
  rw [cmdBytes, hlength] at hpayload
  constructor
  · rw [hring, hentry]
    rfl
  · rw [hring, hentry]
    exact hlength
  · rw [harea, hpayload]
  · rw [hring, hentry]
    rfl

theorem commandRing_sysOf (l : CmdLedger) : CommandRing (sysOf l) where
  pending := by
    rw [unprocessed_sysOf, dev_sysOf, toNat_cmdPending]
  slots := by
    intro k hk
    rw [unprocessed_sysOf] at hk
    have hroom := l.room
    have hslot : ((deviceOf l).cmdHead.toNat + k) % (deviceOf l).ringEntries.toNat =
        (l.done.length + k) % 64 := by
      rw [toNat_cmdHead, toNat_ringEntries, Nat.mod_add_mod]
    have hlast : l.done.length + k < (l.done ++ l.waiting).length := by simpa using hk
    have hkept : (l.done ++ l.waiting).length ≤ l.done.length + k + 64 := by
      rw [List.length_append]
      omega
    have hcmd : (l.done ++ l.waiting)[l.done.length + k] = l.waiting[k] := by simp
    have hcarries : Carries (deviceOf l) _ _ _ := carries_entry rfl rfl hlast hkept
    rw [hcmd] at hcarries
    simpa only [dev_sysOf, hslot, unprocessed_sysOf, processed_sysOf] using hcarries
  tail := by
    have hroom := l.room
    apply BitVec.eq_of_toNat_eq
    rw [dev_sysOf, toNat_cmdTail, BitVec.toNat_umod, BitVec.toNat_add, toNat_cmdHead,
      toNat_cmdPending, toNat_ringEntries, l.all_length]
    omega
  refused := by
    intro status c hfull
    rw [unprocessed_sysOf] at hfull
    have hfull' : ¬ l.waiting.length < 64 := hfull.ge.not_gt
    have hsend : protoSimEnqueueCommand (deviceOf l) c = (deviceOf l, .error .enospc) := by
      rw [device_send, Ledger.add_full hfull', if_neg hfull']
    rw [status_unread rfl, dev_sysOf]
    simp only [protoIoctl, hsend]
    rfl
  taken := by
    intro status c hroom
    rw [unprocessed_sysOf] at hroom
    rw [status_unread rfl]
    exact (reply_send c).trans (if_pos (lt_of_le_of_ne l.room hroom))

/-- **The command ring refines a bounded queue**: after any ioctls it holds what was accepted and
not processed yet, which is what waits in the ledger. -/
theorem command_ring_is_queue (es : List Ioctl) :
    CommandRing (run step probed es) ∧
      (run step probed es).unprocessed = (ledgerAfter es).waiting := by
  rw [run_sysOf]
  exact ⟨commandRing_sysOf _, unprocessed_sysOf _⟩

end PcieDriver.Ring
