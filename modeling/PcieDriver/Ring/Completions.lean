import PcieDriver.Ring.History

/-!
# The completion ring

Every accepted command is completed once and in turn, and the ring keeps the last 64 completions.
What `PROTO_PCIE_IOC_GET_RING_STATE` publishes about the ring is another matter: the head never
moves, so that the window it gives is off once the ring has wrapped, unless it has wrapped just now.
-/

open Base

namespace PcieDriver.Ring

/-! ## Exactly once, in order -/

/-- The entry is the completion of the command that was accepted as number `k`, from 1 on. -/
structure Completes (e : ProtoSimCompletionEntry) (c : ProtoPcieCommand) (k : Nat) : Prop where
  opcode : e.opcode = c.opcode
  status : e.status = statusReady ||| statusDone
  length : e.length.toNat = min c.length.toNat protoPcieMaxPayload
  seqno : e.seqno = BitVec.ofNat 32 k

/-- `(comp_tail - 1 - j) mod ring_entries`. -/
def slotBack (d : ProtoPcieDev) (j : Nat) : Nat :=
  (((d.compTail.toNat : Int) - 1 - j) % d.ringEntries.toNat).toNat

/-- What holds when `s.processed` commands were processed since the last reset. -/
structure InOrder (s : Sys) : Prop where
  total : s.dev.completedTotal = BitVec.ofNat 32 s.processed
  nextSeqno : s.dev.nextSeqno = BitVec.ofNat 32 (1 + s.processed + s.dev.cmdPending.toNat)
  tail : s.dev.compTail.toNat = s.processed % s.dev.ringEntries.toNat
  retained : ∀ j < min s.processed s.dev.ringEntries.toNat,
    ∃ c, s.accepted[s.processed - j - 1]? = some c ∧
      Completes (s.dev.compRing (slotBack s.dev j)) c (s.processed - j)
  stored : ∀ k (hk : k < s.stored.length),
    ∃ c, s.accepted[k]? = some c ∧ Completes s.stored[k] c (k + 1)
  /-- The next call of the loop completes what is left. -/
  complete : (step s .processPending).stored.length = s.accepted.length

theorem completes_completionOf (k : Nat) (c : ProtoPcieCommand) :
    Completes (completionOf k c) c (k + 1) where
  opcode := rfl
  status := rfl
  length := toNat_minU32 _ _
  seqno := rfl

theorem slotBack_sysOf {l : CmdLedger} {j : Nat} (hj : j < l.done.length) :
    slotBack (deviceOf l) j = (l.done.length - j - 1) % 64 := by
  rw [slotBack, toNat_compTail, toNat_ringEntries]
  omega

theorem compRing_getElem (l : CmdLedger) {k : Nat} (hk : k < l.done.length)
    (hkept : l.done.length ≤ k + 64) :
    (deviceOf l).compRing (k % 64) = completionOf k l.done[k] := by
  have hring : (deviceOf l).compRing = cells 64 zeroCompletion (l.done.mapIdx completionOf) := rfl
  rw [hring, cells_getElem _ (by simpa using hk) (by simpa using hkept), List.getElem_mapIdx]

theorem accepted_getElem (l : CmdLedger) {k : Nat} (hk : k < l.done.length) :
    (sysOf l).accepted[k]? = some l.done[k] := by
  have hall : (sysOf l).accepted = l.done ++ l.waiting := rfl
  rw [hall, List.getElem?_append_left hk, List.getElem?_eq_getElem hk]

theorem inOrder_sysOf (l : CmdLedger) : InOrder (sysOf l) where
  total := by
    rw [processed_sysOf]
    rfl
  nextSeqno := by
    have hnext : (deviceOf l).nextSeqno = BitVec.ofNat 32 (l.all.length + 1) := rfl
    rw [dev_sysOf, hnext, toNat_cmdPending, processed_sysOf, Ledger.all_length]
    congr 1
    omega
  tail := by
    rw [dev_sysOf, processed_sysOf, toNat_compTail, toNat_ringEntries]
  retained := by
    intro j hj
    rw [processed_sysOf, dev_sysOf, toNat_ringEntries] at hj
    have hk : l.done.length - j - 1 < l.done.length := by omega
    have hcompletes := completes_completionOf (l.done.length - j - 1) l.done[l.done.length - j - 1]
    rw [show l.done.length - j - 1 + 1 = l.done.length - j by omega] at hcompletes
    rw [processed_sysOf, dev_sysOf, slotBack_sysOf (by omega), compRing_getElem l hk (by omega)]
    exact ⟨_, accepted_getElem l hk, hcompletes⟩
  stored := by
    intro k hk
    have hk' : k < l.done.length := by simpa [sysOf] using hk
    have hentry : (sysOf l).stored[k] = completionOf k l.done[k] := List.getElem_mapIdx
    exact ⟨_, accepted_getElem l hk', hentry ▸ completes_completionOf _ _⟩
  complete := by
    rw [step_sysOf]
    exact processed_sysOf l.finish

/-- **Every accepted command is completed once and in order**, whatever the ioctls, and the ring
keeps the last completions. -/
theorem processed_in_order (es : List Ioctl) : InOrder (run step probed es) := by
  rw [run_sysOf]
  exact inOrder_sysOf _

/-! ## The window -/

/-- The completions that the ring still holds, the oldest first. -/
def Sys.retained (s : Sys) : List ProtoSimCompletionEntry :=
  s.stored.drop (s.processed - s.dev.ringEntries.toNat)

/-- The window that `PROTO_PCIE_IOC_GET_RING_STATE` publishes. -/
structure Window (s : Sys) : Prop where
  tail : (protoSimGetRingState s.dev).compTail =
    ((protoSimGetRingState s.dev).compHead + (protoSimGetRingState s.dev).compPending) %
      s.dev.ringEntries
  count : (protoSimGetRingState s.dev).compPending.toNat = s.retained.length
  entries : Holds s.dev.compRing s.dev.ringEntries.toNat
    (protoSimGetRingState s.dev).compHead.toNat s.retained
  consecutive : ∀ k (hk : k + 1 < s.retained.length),
    s.retained[k + 1].seqno = s.retained[k].seqno + 1

/-- What was accepted since the last reset fits the ring or fills it a whole number of times. -/
def FitsRing (s : Sys) : Prop := s.accepted.length ≤ 64 ∨ 64 ∣ s.accepted.length

theorem retained_sysOf (l : CmdLedger) :
    (sysOf l).retained = (l.done.mapIdx completionOf).drop (l.done.length - 64) := by
  rw [Sys.retained, processed_sysOf]
  rfl

theorem retained_length (l : CmdLedger) : (sysOf l).retained.length = min l.done.length 64 := by
  rw [retained_sysOf, List.length_drop, List.length_mapIdx]
  omega

theorem retained_consecutive (l : CmdLedger) {k : Nat} (hk : k + 1 < (sysOf l).retained.length) :
    (sysOf l).retained[k + 1].seqno = (sysOf l).retained[k].seqno + 1 := by
  simp only [retained_sysOf, List.getElem_drop, List.getElem_mapIdx, completionOf, seqnoOf,
    count_next]
  congr 1

/-- The tail is where the window ends unless the ring has wrapped to some other slot. -/
theorem tail_iff (t : Nat) :
    BitVec.ofNat 32 (t % 64) = (0 + BitVec.ofNat 32 (min t 64)) % protoPcieSimRingEntries ↔
      t ≤ 64 ∨ 64 ∣ t := by
  have hzero (x : BitVec 32) : 0 + x = x := BitVec.zero_add x
  rw [hzero, ← BitVec.toNat_inj, toNat_index, BitVec.toNat_umod, BitVec.toNat_ofNat,
    show protoPcieSimRingEntries.toNat = 64 from rfl]
  omega

theorem window_sysOf (l : CmdLedger) :
    Window (sysOf l) ↔ l.done.length ≤ 64 ∨ 64 ∣ l.done.length := by
  constructor
  · intro h
    exact (tail_iff _).mp h.tail
  · intro hfits
    refine ⟨(tail_iff _).mpr hfits, ?_, ?_, fun k hk => retained_consecutive l hk⟩
    · have hpending : (protoSimGetRingState (sysOf l).dev).compPending =
          BitVec.ofNat 32 (min l.done.length 64) := rfl
      rw [hpending, retained_length, BitVec.toNat_ofNat]
      omega
    · have hring : (sysOf l).dev.compRing = cells 64 zeroCompletion (l.done.mapIdx completionOf) :=
        rfl
      have hholds : Holds (sysOf l).dev.compRing 64 (l.done.length - 64) (sysOf l).retained := by
        rw [hring, retained_sysOf]
        exact holds_cells _ (by rw [List.length_mapIdx]; omega)
      have hfirst : (l.done.length - 64) % 64 = 0 := by omega
      have hhead := hholds.mod_head
      rw [hfirst] at hhead
      exact hhead

theorem window_step_iff {l : CmdLedger} (h : Window (sysOf l)) (io : Ioctl) :
    Window (step (sysOf l) io) ↔ (io = .processPending → FitsRing (sysOf l)) := by
  rw [step_sysOf, window_sysOf]
  by_cases hloop : io = .processPending
  · subst hloop
    exact ⟨fun hfits _ => hfits, fun hfits => hfits rfl⟩
  by_cases hreset : io = .reset
  · subst hreset
    exact iff_of_true (Or.inl (Nat.zero_le _)) fun hio => absurd hio hloop
  · rw [next_done hloop hreset, ← window_sysOf]
    exact iff_of_true h fun hio => absurd hio hloop

/-- **The window is right in all states of a run** exactly if each call of the loop finds that no
more than 64 commands were accepted since the last reset, or a multiple of 64. -/
theorem window_iff (es : List Ioctl) :
    Always step Window probed es ↔
      Along step (fun s io => io = .processPending → FitsRing s) probed es := by
  have hledger : Always step (fun s => ∃ l, s = sysOf l) probed es :=
    Always.of_inv (fun _ io ⟨l, hl⟩ => ⟨l.next (ledgerOp io), hl ▸ step_sysOf l io⟩) ⟨_, probed_eq⟩
  constructor
  · intro h
    refine Along.of_always hledger h.steps ?_
    rintro _ io ⟨l, rfl⟩ ⟨hwindow, hnext⟩
    exact (window_step_iff hwindow io).mp hnext
  · intro h
    have hboth : Always step (fun s => (∃ l, s = sysOf l) ∧ Window s) probed es := by
      refine Always.of_step ?_ ⟨⟨_, probed_eq⟩, ?_⟩ h
      · rintro _ io ⟨⟨l, rfl⟩, hwindow⟩ hfits
        exact ⟨⟨_, step_sysOf l io⟩, (window_step_iff hwindow io).mpr hfits⟩
      · rw [probed_eq, window_sysOf]
        exact Or.inl (Nat.zero_le _)
    exact hboth.mono fun _ hs => hs.2

set_option maxRecDepth 2000 in
/-- One command more than the ring has entries: the newest completion is where the head still is,
and 64 entries from there would end at slot 0, not 1. -/
theorem wrapped_window_is_off :
    let c : ProtoPcieCommand := ⟨1, 0, Vector.replicate _ 0⟩
    let es : List Ioctl := List.replicate 64 (.sendCmd true c) ++
      [.processPending, .sendCmd true c, .processPending]
    let s := run step probed es
    ¬ Window s ∧ s.dev.compHead = 0 ∧ s.dev.compTail = 1 ∧ s.dev.compPending = 64 ∧
      (s.dev.compRing 0).seqno = 65 := by
  intro c es s
  have hs : s = sysOf (ledgerAfter es) := run_sysOf es
  have hdone : (ledgerAfter es).done.length = 65 := by decide +kernel
  have hnewest : ((deviceOf (ledgerAfter es)).compRing 0).seqno = 65 :=
    congrArg _ (compRing_getElem (ledgerAfter es) (k := 64) (by omega) (by omega))
  have htail : (deviceOf (ledgerAfter es)).compTail =
      BitVec.ofNat 32 ((ledgerAfter es).done.length % 64) := rfl
  have hpending : (deviceOf (ledgerAfter es)).compPending =
      BitVec.ofNat 32 (min (ledgerAfter es).done.length 64) := rfl
  rw [hs, window_sysOf, sysOf, htail, hpending, hdone]
  exact ⟨by decide, rfl, rfl, rfl, hnewest⟩

end PcieDriver.Ring
