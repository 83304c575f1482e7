import PcieDriver.Ring.Probe

/-!
# Set-up and tear-down of the simulator driver

On the PCI bus it is set up as the ring driver is. In simulated mode it has a buffer and no rings, and
its probe has labels of its own.
-/

open Base
open PcieDriver.Ring.Probe (Resource zeroed enomem)

namespace PcieDriver.Sim.Probe

/-- A device of this driver has no rings. -/
def protoDestroyDevice (d : Ring.Probe.ProtoPcieDev) : List (Transfer Resource) :=
  Ring.Probe.protoDestroyDevice { d with cmdRing := false, compRing := false, cmdPayloads := false }

structure SimAnswers where
  kzalloc : Bool
  dmaBuf : Bool
  miscRegister : Nat
  deriving DecidableEq

def errFree : List (Transfer Resource) := [.put .dev]
def errDma : List (Transfer Resource) := .put .dmaBuf :: errFree

open Script in
def protoSimProbe (a : SimAnswers) : Script Resource Ring.Probe.ProtoPcieDev :=
  if !a.kzalloc then fail [] enomem else
  got .dev <|
  if !a.dmaBuf then fail errFree enomem else
  got .dmaBuf <|
  if a.miscRegister ≠ 0 then fail errDma a.miscRegister else
  got .misc <|
  done { zeroed with simulated := true, dmaBuf := true, miscRegistered := true }

def simNeeds : Resource → List Resource
  | .misc => [.dev, .dmaBuf]
  | .dev => []
  | _ => [.dev]

/-- `proto_init` and `proto_exit`: the module is loaded and unloaded. -/
def protoSimModule : Driver Resource SimAnswers Ring.Probe.ProtoPcieDev where
  probe := protoSimProbe
  remove := protoDestroyDevice
  needs := simNeeds
  lax := []
  door := .misc

theorem lawful_sim : protoSimModule.Lawful fun _ => True := by
  intro a _
  refine .ite (.fail (by decide) (by decide)) (.got (by decide) ?_)
  refine .ite (.fail (by decide) (by decide)) (.got (by decide) ?_)
  exact .ite (.fail (by decide) (by decide)) (.got (by decide) (.done (by decide)))

/-- **Both modules can be loaded and unloaded in simulated mode**, whatever runs out: nothing leaks,
nothing is freed early, and no ioctl finds anything missing. -/
theorem modules_unloadable (es : List (BindEvent Resource Ring.Probe.SimAnswers))
    (es' : List (BindEvent Resource SimAnswers)) :
    Driver.Unloadable Ring.Probe.protoSimModule es ∧ Driver.Unloadable protoSimModule es' :=
  ⟨Driver.unloadable Ring.Probe.lawful_sim fun e _ => Driver.good_of_true e,
    Driver.unloadable lawful_sim fun e _ => Driver.good_of_true e⟩

/-- A load that fails, then one that works, an open file, and the removal. -/
def twoLoads {κ : Type} (failing granted : κ) : List (BindEvent Resource κ) :=
  .bind failing :: List.replicate 8 .transfer ++ [.bind granted] ++ List.replicate 6 .transfer ++
    [.enter, .use 0, .leave 0, .unbind] ++ List.replicate 6 .transfer

/-- The ring module has no completion ring first, and the sim module no device node. -/
theorem modules_unloadable_two_loads :
    let es := twoLoads ⟨true, true, true, false, true, 0⟩ ⟨true, true, true, true, true, 0⟩
    let es' := twoLoads ⟨true, true, 16⟩ ⟨true, true, 0⟩
    let s := run Ring.Probe.protoSimModule.step (unbound Resource _) es
    let s' := run protoSimModule.step (unbound Resource _) es'
    s.round = 2 ∧ s.held = [] ∧ s'.round = 2 ∧ s'.held = [] ∧
      Along Ring.Probe.protoSimModule.step Ring.Probe.protoSimModule.Safe (unbound Resource _) es ∧
      Along protoSimModule.step protoSimModule.Safe (unbound Resource _) es' := by
  intro es es' s s'
  obtain ⟨hring, hsim⟩ := modules_unloadable es es'
  exact ⟨by decide, by decide, by decide, by decide, hring.safe (by decide), hsim.safe (by decide)⟩

end PcieDriver.Sim.Probe
