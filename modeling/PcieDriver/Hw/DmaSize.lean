import PcieDriver.Hw.Path

/-!
# The size that is given back

`dma_len` is the size of the buffer when it is allocated and when it is freed, and in between it is
the length of the last command.
-/

open Base
open PcieDriver.Ring (ProtoPcieCommand Ioctl Reply Errno RegWrite DmaRegion PciResources cmdLength)

namespace PcieDriver.Hw

/-- An ioctl and what `REG_STATUS` reads during it. -/
structure HwIoctl where
  status : BitVec 32
  io : Ioctl

/-- No command gets as far as the driver. -/
def Unsent (es : List HwIoctl) : Prop := ∀ e ∈ es, ∀ c, e.io ≠ .sendCmd true c

/-- The `dma_len` that an ioctl sets. -/
def newDmaLen (e : HwIoctl) : Option (BitVec 64) :=
  match e.io with
  | .sendCmd true c => some ((cmdLength c).setWidth 64)
  | _ => none

theorem newDmaLen_ne {e : HwIoctl} {len : BitVec 64} (h : newDmaLen e = some len) : len ≠ 4096 := by
  unfold newDmaLen at h
  split at h
  · next c _ =>
    obtain rfl := Option.some.inj h
    have hle := Ring.cmdLength_le c
    unfold Ring.protoPcieMaxPayload at hle
    intro heq
    have hnat := congrArg BitVec.toNat heq
    rw [Sim.toNat_dmaLen, show (4096 : BitVec 64).toNat = 4096 from rfl] at hnat
    omega
  · cases h

theorem newDmaLen_none {e : HwIoctl} : newDmaLen e = none ↔ ∀ c, e.io ≠ .sendCmd true c := by
  unfold newDmaLen
  split
  · next c h => exact iff_of_false (by simp) fun hall => hall c h
  · next h => exact iff_of_true rfl h

theorem unsent_iff (es : List HwIoctl) : es.filterMap newDmaLen = [] ↔ Unsent es := by
  simp only [List.filterMap_eq_nil_iff, newDmaLen_none, Unsent]

section
variable {σ : Type} {hw : σ → Prop} {core : σ → Core}
  {ioctl : σ → BitVec 32 → Ioctl → σ × List RegWrite × Except Errno Reply} {d : σ}

def ioctlStep (ioctl : σ → BitVec 32 → Ioctl → σ × List RegWrite × Except Errno Reply) (d : σ)
    (e : HwIoctl) : σ :=
  (ioctl d e.status e.io).1

theorem dmaLen_step (hpath : TakesPath hw core ioctl) (e : HwIoctl) (hd : hw d) :
    (core (ioctlStep ioctl d e)).dmaLen = (newDmaLen e).getD (core d).dmaLen := by
  rw [ioctlStep, (hpath d e.status e.io hd).fields]
  obtain ⟨status, io⟩ := e
  cases io with
  | sendCmd copied c => cases copied <;> rfl
  | getInfo | reset | processPending | getStatus | getRingState | other => rfl

theorem mode_step (hpath : TakesPath hw core ioctl) (d : σ) (e : HwIoctl) (hd : hw d) :
    hw (ioctlStep ioctl d e) :=
  (hpath d e.status e.io hd).mode

theorem mode_run (hpath : TakesPath hw core ioctl) (hd : hw d) (es : List HwIoctl) :
    hw (run (ioctlStep ioctl) d es) :=
  run_inv (mode_step hpath) hd

theorem dmaLen_run (hpath : TakesPath hw core ioctl) (hd : hw d) (hlen : (core d).dmaLen = 4096)
    (es : List HwIoctl) :
    (core (run (ioctlStep ioctl) d es)).dmaLen = 4096 ↔ Unsent es := by
  have hlast : (core (run (ioctlStep ioctl) d es)).dmaLen =
      (es.filterMap newDmaLen).getLast?.getD (core d).dmaLen :=
    run_field (fun d => (core d).dmaLen) newDmaLen (mode_step hpath)
      (fun _ e hd => dmaLen_step hpath e hd) hd
  rw [hlast, hlen, ← unsent_iff, ← List.getLast?_eq_none_iff]
  cases hfound : (es.filterMap newDmaLen).getLast? with
  | none => exact iff_of_true rfl rfl
  | some len =>
    obtain ⟨e, -, hnew⟩ := List.mem_filterMap.mp (List.mem_of_getLast? hfound)
    exact iff_of_false (newDmaLen_ne hnew) (Option.some_ne_none len)

end

/-- The sizes passed to `dma_alloc_coherent` and, after `es`, to `dma_free_coherent`. -/
def RingSameSize (pdev : PciResources) (es : List HwIoctl) : Prop :=
  (Ring.protoDestroyDevice (run (ioctlStep Ring.protoIoctl) (Ring.protoPciProbe pdev).1 es)).map
    DmaRegion.size = some (Ring.protoPciProbe pdev).2.size

def SimSameSize (pdev : PciResources) (es : List HwIoctl) : Prop :=
  (Sim.protoDestroyDevice (run (ioctlStep Sim.protoIoctl) (Sim.protoPciProbe pdev).1 es)).map
    DmaRegion.size = some (Sim.protoPciProbe pdev).2.size

/-- **The buffer is freed with the size it was allocated with exactly when no command was sent.** -/
theorem freed_size_iff (pdev : PciResources) (es : List HwIoctl) :
    (RingSameSize pdev es ↔ Unsent es) ∧ (SimSameSize pdev es ↔ Unsent es) := by
  constructor
  · have hmode := mode_run (d := (Ring.protoPciProbe pdev).1) ring_path rfl es
    rw [← dmaLen_run (d := (Ring.protoPciProbe pdev).1) ring_path rfl rfl es, RingSameSize,
      Ring.protoDestroyDevice, hmode]
    exact Option.some_inj
  · have hmode := mode_run (d := (Sim.protoPciProbe pdev).1) sim_path rfl es
    rw [← dmaLen_run (d := (Sim.protoPciProbe pdev).1) sim_path rfl rfl es, SimSameSize,
      Sim.protoDestroyDevice, hmode]
    exact Option.some_inj

/-- After one command of three bytes both drivers free three bytes. -/
theorem freed_size_differs :
    let pdev : PciResources := ⟨0x1000, 11, Mem.zero, 0x10000⟩
    let es : List HwIoctl := [⟨Ring.statusReady, .sendCmd true ⟨1, 3, Vector.replicate 256 7⟩⟩]
    ¬ RingSameSize pdev es ∧ ¬ SimSameSize pdev es := by
  intro pdev es
  constructor
  · intro hsame
    have hsizes : some (3 : BitVec 64) = some 4096 := hsame
    exact absurd hsizes (by decide)
  · intro hsame
    have hsizes : some (3 : BitVec 64) = some 4096 := hsame
    exact absurd hsizes (by decide)

end PcieDriver.Hw
