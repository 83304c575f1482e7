import PcieDriver.Base.Binding

/-!
# Set-up and tear-down of the ring driver

A probe that fails half-way leaves the device to `proto_destroy_device`, which goes by the flags that
were set so far. In simulated mode the module itself is the device.
-/

open Base

namespace PcieDriver.Ring.Probe

/-- What the driver gets from the kernel. `dev` is the structure itself, `irq` the handler, `misc` the
device node. -/
inductive Resource
  | dev | enabled | regions | bar0 | dmaBuf | irqVectors | irq | misc
  | cmdRing | compRing | cmdPayloads
  deriving DecidableEq

/-- The flags and pointers that `proto_destroy_device` goes by. -/
structure ProtoPcieDev where
  pdev : Bool
  simulated : Bool
  deviceEnabled : Bool
  regionsRequested : Bool
  barMapped : Bool
  dmaBuf : Bool
  irqVectorsAllocated : Bool
  irq : Int
  irqRequested : Bool
  miscRegistered : Bool
  cmdRing : Bool
  compRing : Bool
  cmdPayloads : Bool
  deriving DecidableEq

/-- After `kzalloc`. -/
def zeroed : ProtoPcieDev :=
  ⟨false, false, false, false, false, false, false, 0, false, false, false, false, false⟩

def enomem : Nat := 12

def putIf (flag : Bool) (r : Resource) : List (Transfer Resource) := if flag then [.put r] else []

def protoDestroyDevice (d : ProtoPcieDev) : List (Transfer Resource) :=
  putIf d.miscRegistered .misc ++
  putIf (d.irqRequested && decide (0 < d.irq)) .irq ++
  putIf (d.irqVectorsAllocated && d.pdev) .irqVectors ++
  putIf (d.dmaBuf && (d.simulated || d.pdev)) .dmaBuf ++
  putIf d.cmdRing .cmdRing ++
  putIf d.compRing .compRing ++
  putIf d.cmdPayloads .cmdPayloads ++
  putIf d.barMapped .bar0 ++
  putIf (d.regionsRequested && d.pdev) .regions ++
  putIf (d.deviceEnabled && d.pdev) .enabled ++
  [.put .dev]

/-! ## On the PCI bus -/

/-- The answers to the calls of a probe: whether a pointer came back, or the error number, which is 0
where the call succeeded. -/
structure PciAnswers where
  kzalloc : Bool
  pciEnableDeviceMem : Nat
  pciRequestRegions : Nat
  pciIoremapBar : Bool
  dmaSetMask64 : Nat
  dmaSetMask32 : Nat
  dmaAllocCoherent : Bool
  pciAllocIrqVectors : Nat
  pciIrqVector : Int
  requestIrq : Nat
  miscRegister : Nat
  deriving DecidableEq

/-- The mask of 32 bits is tried when that of 64 bits is refused. -/
def dmaSetMaskAndCoherent (a : PciAnswers) : Nat :=
  if a.dmaSetMask64 = 0 then 0 else a.dmaSetMask32

open Script in
def protoPciProbe (a : PciAnswers) : Script Resource ProtoPcieDev :=
  if !a.kzalloc then fail [] enomem else
  got .dev <|
  let d := { zeroed with pdev := true }
  if a.pciEnableDeviceMem ≠ 0 then fail [.put .dev] a.pciEnableDeviceMem else
  got .enabled <|
  let d := { d with deviceEnabled := true }
  if a.pciRequestRegions ≠ 0 then fail (protoDestroyDevice d) a.pciRequestRegions else
  got .regions <|
  let d := { d with regionsRequested := true }
  if !a.pciIoremapBar then fail (protoDestroyDevice d) enomem else
  got .bar0 <|
  let d := { d with barMapped := true }
  if dmaSetMaskAndCoherent a ≠ 0 then fail (protoDestroyDevice d) (dmaSetMaskAndCoherent a) else
  if !a.dmaAllocCoherent then fail (protoDestroyDevice d) enomem else
  got .dmaBuf <|
  let d := { d with dmaBuf := true }
  if a.pciAllocIrqVectors ≠ 0 then fail (protoDestroyDevice d) a.pciAllocIrqVectors else
  got .irqVectors <|
  let d := { d with irqVectorsAllocated := true, irq := a.pciIrqVector }
  if a.requestIrq ≠ 0 then fail (protoDestroyDevice d) a.requestIrq else
  got .irq <|
  let d := { d with irqRequested := true }
  if a.miscRegister ≠ 0 then fail (protoDestroyDevice d) a.miscRegister else
  got .misc <|
  done { d with miscRegistered := true }

def pciNeeds : Resource → List Resource
  | .dev => []
  | .enabled => [.dev]
  | .regions | .dmaBuf | .irqVectors => [.dev, .enabled]
  | .bar0 => [.dev, .enabled, .regions]
  | .irq => [.dev, .enabled, .regions, .bar0, .irqVectors]
  | .misc => [.dev, .enabled, .regions, .bar0, .dmaBuf]
  | .cmdRing | .compRing | .cmdPayloads => [.dev]

def protoPciDriver : Driver Resource PciAnswers ProtoPcieDev where
  probe := protoPciProbe
  remove := protoDestroyDevice
  needs := pciNeeds
  lax := []
  door := .misc

/-- No handler is registered for an interrupt number that `proto_destroy_device` takes for none. -/
def IrqNumbered (a : PciAnswers) : Prop := a.requestIrq = 0 → 0 < a.pciIrqVector

instance : DecidablePred IrqNumbered := fun a =>
  inferInstanceAs (Decidable (a.requestIrq = 0 → 0 < a.pciIrqVector))

/-- The device once it has its interrupt vector. -/
def claimed (irq : Int) (irqRequested miscRegistered : Bool) : ProtoPcieDev :=
  { zeroed with
    pdev := true
    deviceEnabled := true
    regionsRequested := true
    barMapped := true
    dmaBuf := true
    irqVectorsAllocated := true
    irq, irqRequested, miscRegistered }

theorem destroy_claimed {irq : Int} {requested : Bool} (registered : Bool)
    (h : requested → 0 < irq) :
    protoDestroyDevice (claimed irq requested registered) =
      putIf registered .misc ++ putIf requested .irq ++
        [.put .irqVectors, .put .dmaBuf, .put .bar0, .put .regions, .put .enabled, .put .dev] := by
  have hirq : putIf ((claimed irq requested registered).irqRequested &&
      decide (0 < (claimed irq requested registered).irq)) .irq = putIf requested .irq := by
    cases requested with
    | true => exact if_pos (decide_eq_true (h rfl))
    | false => rfl
  rw [protoDestroyDevice, hirq]
  cases registered <;> simp [claimed, zeroed, putIf]

/-- **Whatever the flags say is given back**, wherever the probe stopped. -/
theorem lawful_pci : protoPciDriver.Lawful IrqNumbered := by
  intro a ha
  refine .ite (.fail (by decide) (by decide)) (.got (by decide) ?_)
  refine .ite (.fail (by decide) (by decide)) (.got (by decide) ?_)
  refine .ite (.fail (by decide) (by decide)) (.got (by decide) ?_)
  refine .ite (.fail (by decide) (by decide)) (.got (by decide) ?_)
  refine .ite (.fail (by decide) (by decide)) ?_
  refine .ite (.fail (by decide) (by decide)) (.got (by decide) ?_)
  refine .ite (.fail (by decide) (by decide)) (.got (by decide) ?_)
  by_cases hrequest : a.requestIrq = 0
  · have hirq := ha hrequest
    rw [if_neg (not_not_intro hrequest)]
    refine .got (by decide) (.ite ?_ (.got (by decide) (.done ⟨by decide, ?_⟩)))
    · show protoPciDriver.LawfulFrom _
        (.fail (protoDestroyDevice (claimed a.pciIrqVector true false)) _)
      rw [destroy_claimed false fun _ => hirq]
      exact .fail (by decide) (by decide)
    · show Along _ _ _ (protoDestroyDevice (claimed a.pciIrqVector true true)) ∧
        run _ _ (protoDestroyDevice (claimed a.pciIrqVector true true)) = []
      rw [destroy_claimed true fun _ => hirq]
      decide
  · rw [if_pos hrequest]
    show protoPciDriver.LawfulFrom _
      (.fail (protoDestroyDevice (claimed a.pciIrqVector false false)) _)
    rw [destroy_claimed false fun hrequested : false = true => nomatch hrequested]
    exact .fail (by decide) (by decide)

/-- **Nothing leaks and nothing is freed early** in any order of probes, removals and failures, as long
as the kernel numbers its interrupts from 1. -/
theorem pci_always_tidy {es : List (BindEvent Resource PciAnswers)}
    (hes : ∀ e ∈ es, Driver.GoodBind IrqNumbered e) :
    Always protoPciDriver.step protoPciDriver.Tidy (unbound Resource ProtoPcieDev) es :=
  Driver.always_tidy lawful_pci hes

def pciGranted : PciAnswers := ⟨true, 0, 0, true, 5, 0, true, 0, 24, 0, 0⟩

/-- A probe without a device node, then one that works, and the removal. -/
def pciTwoProbes : List (BindEvent Resource PciAnswers) :=
  .bind { pciGranted with miscRegister := 16 } :: List.replicate 14 .transfer ++
    [.bind pciGranted] ++ List.replicate 8 .transfer ++ [.unbind] ++ List.replicate 8 .transfer

theorem pci_always_tidy_two_probes :
    (run protoPciDriver.step (unbound Resource ProtoPcieDev) pciTwoProbes).round = 2 ∧
      Always protoPciDriver.step protoPciDriver.Tidy (unbound Resource ProtoPcieDev) pciTwoProbes :=
  ⟨by decide, pci_always_tidy (by decide)⟩

/-- Number 0 would be kept for ever. -/
example :
    let es : List (BindEvent Resource PciAnswers) :=
      .bind { pciGranted with pciIrqVector := 0 } :: List.replicate 8 .transfer ++
        .unbind :: List.replicate 7 .transfer
    let s := run protoPciDriver.step (unbound Resource ProtoPcieDev) es
    s.todo = [] ∧ s.bound = none ∧ s.held = [.irq] := by decide

/-! ## In simulated mode -/

structure SimAnswers where
  kzalloc : Bool
  dmaBuf : Bool
  cmdRing : Bool
  compRing : Bool
  cmdPayloads : Bool
  miscRegister : Nat
  deriving DecidableEq

/-- `kfree` does nothing with a null pointer. -/
def simErrFree (d : ProtoPcieDev) : List (Transfer Resource) :=
  putIf d.dmaBuf .dmaBuf ++ putIf d.cmdRing .cmdRing ++ putIf d.compRing .compRing ++
    putIf d.cmdPayloads .cmdPayloads ++ [.put .dev]

open Script in
/-- The four allocations are made before any of them is looked at. -/
def protoSimProbe (a : SimAnswers) : Script Resource ProtoPcieDev :=
  if !a.kzalloc then fail [] enomem else
  got .dev <|
  attempt a.dmaBuf .dmaBuf fun dmaBuf =>
  attempt a.cmdRing .cmdRing fun cmdRing =>
  attempt a.compRing .compRing fun compRing =>
  attempt a.cmdPayloads .cmdPayloads fun cmdPayloads =>
  let d := { zeroed with simulated := true, dmaBuf, cmdRing, compRing, cmdPayloads }
  if !dmaBuf || !cmdRing || !compRing || !cmdPayloads then fail (simErrFree d) enomem else
  if a.miscRegister ≠ 0 then fail (simErrFree d) a.miscRegister else
  got .misc <|
  done { d with miscRegistered := true }

/-- What an ioctl in simulated mode touches. -/
def simNeeds : Resource → List Resource
  | .misc => [.dev, .dmaBuf, .cmdRing, .compRing, .cmdPayloads]
  | .dev => []
  | _ => [.dev]

/-- `proto_init` and `proto_exit`: the module is loaded and unloaded. -/
def protoSimModule : Driver Resource SimAnswers ProtoPcieDev where
  probe := protoSimProbe
  remove := protoDestroyDevice
  needs := simNeeds
  lax := []
  door := .misc

/-- **Each exit gives back what was allocated on the way to it.** -/
theorem lawful_sim : protoSimModule.Lawful fun _ => True := by
  intro a _
  refine .ite (.fail (by decide) (by decide)) (.got (by decide) ?_)
  refine .attempt (by decide) fun dmaBuf => ?_
  refine .attempt (by cases dmaBuf <;> decide) fun cmdRing => ?_
  refine .attempt (by cases dmaBuf <;> cases cmdRing <;> decide) fun compRing => ?_
  refine .attempt (by revert dmaBuf cmdRing compRing; decide) fun cmdPayloads => ?_
  by_cases hmissing : (!dmaBuf || !cmdRing || !compRing || !cmdPayloads) = true
  · rw [if_pos hmissing]
    refine .fail ?_ ?_ <;> revert dmaBuf cmdRing compRing cmdPayloads <;> decide
  · rw [if_neg hmissing]
    simp only [Bool.not_eq_true, Bool.or_eq_false_iff, Bool.not_eq_false'] at hmissing
    obtain ⟨⟨⟨rfl, rfl⟩, rfl⟩, rfl⟩ := hmissing
    exact .ite (.fail (by decide) (by decide)) (.got (by decide) (.done (by decide)))

end PcieDriver.Ring.Probe
