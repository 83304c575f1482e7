import PcieDriver.Base.Machine
import PcieDriver.Sim.Device

/-!
# What a reset leaves behind

A reset clears `dma_len` bytes, and `dma_len` is the length of the last command. What an earlier and
longer command put behind that stays in the buffer.
-/

open Base
open PcieDriver.Ring (ProtoPcieCommand Ioctl cmdLength cmdBytes)

namespace PcieDriver.Sim

/-! ## The device and what was sent to it -/

structure Sys where
  dev : ProtoPcieDev
  /-- The commands since the last reset, the newest first. -/
  sent : List ProtoPcieCommand

def Sys.sentAfter (s : Sys) : Ioctl → List ProtoPcieCommand
  | .sendCmd true c => c :: s.sent
  | .reset => []
  | _ => s.sent

def sysStep (s : Sys) (io : Ioctl) : Sys := ⟨ioctlStep s.dev io, s.sentAfter io⟩

def fresh : Sys := ⟨protoSimProbe, []⟩

/-- All that `proto_sim_probe` allocated is zero. -/
def Erased (d : ProtoPcieDev) : Prop := ∀ i < 4096, d.dmaBuf i = 0

/-- The byte that the newest command long enough to have one has at `i`. -/
def byteSent (sent : List ProtoPcieCommand) (i : Nat) : Byte :=
  (sent.find? fun c => i < (cmdLength c).toNat).elim 0 fun c => (cmdBytes c).getD i 0

/-- Past the end of the last command, the ones before it sent nothing but zeros. -/
def Covered : List ProtoPcieCommand → Prop
  | [] => True
  | last :: older => ∀ i, (cmdLength last).toNat ≤ i → byteSent older i = 0

/-! ## What the buffer holds -/

theorem byteSent_cons (c : ProtoPcieCommand) (older : List ProtoPcieCommand) (i : Nat) :
    byteSent (c :: older) i =
      if i < (cmdLength c).toNat then (cmdBytes c).getD i 0 else byteSent older i := by
  unfold byteSent
  split_ifs with hi
  · rw [List.find?_cons_of_pos (by simpa using hi)]
    rfl
  · rw [List.find?_cons_of_neg (by simpa using hi)]

theorem byteSent_far (sent : List ProtoPcieCommand) {i : Nat} (hi : 4096 ≤ i) :
    byteSent sent i = 0 := by
  induction sent with
  | nil => rfl
  | cons c older ih =>
    have hle := Ring.cmdLength_le c
    unfold Ring.protoPcieMaxPayload at hle
    rw [byteSent_cons, if_neg (by omega), ih]

/-- As long as every reset was clean, the buffer holds what was sent since the last one. -/
structure Held (s : Sys) : Prop where
  simulated : s.dev.simulated = true
  buffer : ∀ i < 4096, s.dev.dmaBuf i = byteSent s.sent i
  length : ∀ last older, s.sent = last :: older → s.dev.dmaLen.toNat = (cmdLength last).toNat

theorem held_fresh : Held fresh where
  simulated := rfl
  buffer := fun _ _ => rfl
  length := fun _ _ h => by cases h

section
variable {s : Sys}

theorem Held.send (h : Held s) (c : ProtoPcieCommand) : Held (sysStep s (.sendCmd true c)) := by
  have hdev : (sysStep s (.sendCmd true c)).dev = _ := ioctl_send h.simulated c
  constructor
  · rw [hdev]
    exact h.simulated
  · intro i hi
    have hsent : (sysStep s (.sendCmd true c)).sent = c :: s.sent := rfl
    rw [hdev, hsent, byteSent_cons, ← Ring.cmdBytes_length]
    split_ifs with hlt
    · exact Mem.put_front _ _ hlt
    · exact (Mem.put_outside _ _ _ (by omega)).trans (h.buffer i hi)
  · intro last older hsent
    obtain ⟨rfl, -⟩ := List.cons.inj hsent
    rw [hdev]
    exact toNat_dmaLen _

theorem Held.reset_buffer (h : Held s) {i : Nat} (hi : i < 4096) :
    (ioctlStep s.dev .reset).dmaBuf i = if i < s.dev.dmaLen.toNat then 0 else byteSent s.sent i := by
  have hdev : (ioctlStep s.dev .reset).dmaBuf = s.dev.dmaBuf.clear 0 s.dev.dmaLen.toNat := by
    rw [ioctl_reset h.simulated]
  rw [hdev, Mem.clear_apply, h.buffer i hi]
  simp only [Nat.zero_le, true_and, Nat.zero_add]

theorem Held.erased_iff (h : Held s) : Erased (ioctlStep s.dev .reset) ↔ Covered s.sent := by
  have hreset {i : Nat} (hi : i < 4096) := h.reset_buffer hi
  rcases hs : s.sent with _ | ⟨last, older⟩
  · refine iff_of_true (fun i hi => ?_) trivial
    rw [hreset hi, hs]
    exact ite_self 0
  · have hlength := h.length last older hs
    constructor
    · intro herased i hi
      by_cases hin : i < 4096
      · have hzero := herased i hin
        rwa [hreset hin, hs, hlength, if_neg (by omega), byteSent_cons, if_neg (by omega)] at hzero
      · exact byteSent_far older (by omega)
    · intro hcovered i hi
      rw [hreset hi, hs, hlength]
      split_ifs with hlt
      · rfl
      · rw [byteSent_cons, if_neg hlt]
        exact hcovered i (by omega)

theorem Held.reset (h : Held s) (herased : Erased (ioctlStep s.dev .reset)) :
    Held (sysStep s .reset) where
  simulated := by
    have hdev : (sysStep s .reset).dev = _ := ioctl_reset h.simulated
    rw [hdev]
    exact h.simulated
  buffer := herased
  length := fun _ _ hsent => by cases hsent

theorem Held.step (h : Held s) (io : Ioctl) (herased : io = .reset → Erased (sysStep s io).dev) :
    Held (sysStep s io) := by
  cases io with
  | reset => exact h.reset (herased rfl)
  | sendCmd copied c =>
    cases copied with
    | true => exact h.send c
    | false => exact ⟨h.simulated, h.buffer, h.length⟩
  | getInfo | processPending | getStatus | getRingState | other =>
    exact ⟨h.simulated, h.buffer, h.length⟩

end

/-! ## When a reset erases the buffer -/

/-- **Every reset erases the whole buffer exactly when** at each of them nothing but zeros was sent
past the end of the last command. -/
theorem reset_erases_iff (es : List Ioctl) :
    Along sysStep (fun s io => io = .reset → Erased (sysStep s io).dev) fresh es ↔
      Along sysStep (fun s io => io = .reset → Covered s.sent) fresh es := by
  refine along_iff (fun s io h => ?_) (fun s io h herased => h.step io herased) held_fresh
  refine forall_congr' fun hreset => ?_
  subst hreset
  exact h.erased_iff

/-- Two bytes, then one, then a reset: the second of the two bytes is still there. -/
theorem reset_leaves_byte :
    let es : List Ioctl := [.sendCmd true ⟨1, 2, Vector.replicate 256 7⟩,
      .sendCmd true ⟨1, 1, Vector.replicate 256 0⟩, .reset]
    ¬ Along sysStep (fun s io => io = .reset → Erased (sysStep s io).dev) fresh es := by
  intro es hall
  have herased := hall.2.2.1 rfl 1 (by decide)
  exact absurd herased (by decide +kernel)

end PcieDriver.Sim
