import PcieDriver.Base.Binding

/-!
# Set-up and tear-down of the driver

`edu_probe` with its error labels, and `edu_remove`. What the kernel answers to each call is given.
-/

open Base

namespace PcieDriver.Edu.Probe

/-- What the driver gets from the kernel. `edu` is the structure itself, `irq` the handler, `misc` the
device node. -/
inductive Resource
  | edu | enabled | regions | bar0 | dma | irqVectors | irq | misc | debugfs | sysfs
  deriving DecidableEq

/-- The answers to the calls of a probe: whether a pointer came back, or the error number, which is 0
where the call succeeded. -/
structure Answers where
  kzalloc : Bool
  pciEnableDevice : Nat
  pciRequestRegions : Nat
  dmaSetMaskAndCoherent : Nat
  pciIomap : Bool
  dmaAllocCoherent : Bool
  pciAllocIrqVectors : Nat
  requestIrq : Nat
  miscRegister : Nat
  debugfsCreateDir : Bool
  sysfsCreateGroup : Nat
  deriving DecidableEq

/-- The pointers that `edu_remove` tests. -/
structure EduDev where
  bar0 : Bool
  dmaVirt : Bool
  dbgfsDir : Bool
  deriving DecidableEq

def enomem : Nat := 12

/-! ## The code -/

def errFree : List (Transfer Resource) := [.put .edu]
def errDisable : List (Transfer Resource) := .put .enabled :: errFree
def errRelease : List (Transfer Resource) := .put .regions :: errDisable
def errIounmap : List (Transfer Resource) := .put .bar0 :: errRelease
def errDmaFree : List (Transfer Resource) := .put .dma :: errIounmap
def errIrqVecs : List (Transfer Resource) := .put .irqVectors :: errDmaFree
def errIrq : List (Transfer Resource) := .put .irq :: errIrqVecs

/-- A probe goes on without the debugfs directory and without the sysfs group. -/
def eduDebugfsInit (a : Answers) (rest : Bool → Script Resource EduDev) : Script Resource EduDev :=
  .attempt a.debugfsCreateDir .debugfs rest

open Script in
def eduProbe (a : Answers) : Script Resource EduDev :=
  if !a.kzalloc then fail [] enomem else
  got .edu <|
  if a.pciEnableDevice ≠ 0 then fail errFree a.pciEnableDevice else
  got .enabled <|
  if a.pciRequestRegions ≠ 0 then fail errDisable a.pciRequestRegions else
  got .regions <|
  if a.dmaSetMaskAndCoherent ≠ 0 then fail errRelease a.dmaSetMaskAndCoherent else
  if !a.pciIomap then fail errRelease enomem else
  got .bar0 <|
  if !a.dmaAllocCoherent then fail errIounmap enomem else
  got .dma <|
  if a.pciAllocIrqVectors ≠ 0 then fail errDmaFree a.pciAllocIrqVectors else
  got .irqVectors <|
  if a.requestIrq ≠ 0 then fail errIrqVecs a.requestIrq else
  got .irq <|
  if a.miscRegister ≠ 0 then fail errIrq a.miscRegister else
  got .misc <|
  eduDebugfsInit a fun dbgfsDir =>
  attempt (a.sysfsCreateGroup == 0) .sysfs fun _ =>
  done ⟨true, true, dbgfsDir⟩

def eduDebugfsRemove (e : EduDev) : List (Transfer Resource) :=
  if e.dbgfsDir then [.put .debugfs] else []

def eduRemove (e : EduDev) : List (Transfer Resource) :=
  eduDebugfsRemove e ++ [.put .sysfs, .put .misc, .put .irq, .put .irqVectors] ++
    (if e.dmaVirt then [.put .dma] else []) ++ (if e.bar0 then [.put .bar0] else []) ++
    [.put .regions, .put .enabled, .put .edu]

/-! ## What needs what -/

/-- The structure holds what is needed to give the rest back. A handler, an open file and the files of
debugfs and sysfs use what is listed here. -/
def needs : Resource → List Resource
  | .edu => []
  | .enabled => [.edu]
  | .regions | .dma | .irqVectors => [.edu, .enabled]
  | .bar0 => [.edu, .enabled, .regions]
  | .irq => [.edu, .enabled, .regions, .bar0, .dma, .irqVectors]
  | .misc => [.edu, .enabled, .regions, .bar0, .dma, .irqVectors, .irq]
  | .debugfs | .sysfs => [.edu]

/-- `edu_remove` removes the sysfs group also when there is none. -/
def eduDriver : Driver Resource Answers EduDev where
  probe := eduProbe
  remove := eduRemove
  needs := needs
  lax := [.sysfs]
  door := .misc

/-- **Each exit of the probe gives back what was got on the way to it.** -/
theorem lawful : eduDriver.Lawful fun _ => True := by
  intro a _
  refine .ite (.fail (by decide) (by decide)) (.got (by decide) ?_)
  refine .ite (.fail (by decide) (by decide)) (.got (by decide) ?_)
  refine .ite (.fail (by decide) (by decide)) (.got (by decide) ?_)
  refine .ite (.fail (by decide) (by decide)) ?_
  refine .ite (.fail (by decide) (by decide)) (.got (by decide) ?_)
  refine .ite (.fail (by decide) (by decide)) (.got (by decide) ?_)
  refine .ite (.fail (by decide) (by decide)) (.got (by decide) ?_)
  refine .ite (.fail (by decide) (by decide)) (.got (by decide) ?_)
  refine .ite (.fail (by decide) (by decide)) (.got (by decide) ?_)
  refine .attempt (by decide) fun dbgfsDir => ?_
  refine .attempt (by cases dbgfsDir <;> decide) fun sysfs => .done ?_
  revert dbgfsDir sysfs
  decide

/-! ## Whatever the kernel answers -/

/-- **Nothing leaks and nothing is freed early**: in every order of probes, removals and failures the
driver holds a resource once and with all that it needs, gives back only what it holds (but for the
sysfs group), and holds nothing when no device is bound. -/
theorem edu_always_tidy (es : List (BindEvent Resource Answers)) :
    Always eduDriver.step eduDriver.Tidy (unbound Resource EduDev) es :=
  Driver.always_tidy lawful fun e _ => Driver.good_of_true e

/-- An open file is used before the interrupt of its round is freed. -/
def InTime (s : Binding Resource EduDev) (e : BindEvent Resource Answers) : Prop :=
  ∀ i n, e = .use i → s.users[i]? = some n → n = s.round ∧ .irq ∈ s.held

/-- **Unloading the module is safe**: it waits for the open files, and then nobody finds anything
missing. -/
theorem edu_along_safe_of_counted {es : List (BindEvent Resource Answers)}
    (h : Along eduDriver.step Driver.Counted (unbound Resource EduDev) es) :
    Along eduDriver.step eduDriver.Safe (unbound Resource EduDev) es :=
  (Driver.unloadable lawful fun e _ => Driver.good_of_true e).safe h

/-- A kernel that grants everything. -/
def granted : Answers := ⟨true, 0, 0, 0, true, true, 0, 0, 0, true, 0⟩

/-- A probe without an interrupt, then one that works, an open file, and the removal. -/
def twoProbes : List (BindEvent Resource Answers) :=
  .bind { granted with requestIrq := 16 } :: List.replicate 12 .transfer ++
    [.bind granted] ++ List.replicate 10 .transfer ++
    [.enter, .visit .irq, .use 0, .visit .debugfs, .leave 0, .unbind] ++ List.replicate 10 .transfer

theorem edu_along_safe_of_counted_two_probes :
    (run eduDriver.step (unbound Resource EduDev) twoProbes).held = [] ∧
      (run eduDriver.step (unbound Resource EduDev) twoProbes).round = 2 ∧
      Along eduDriver.step eduDriver.Safe (unbound Resource EduDev) twoProbes :=
  ⟨by decide, by decide, edu_along_safe_of_counted (by decide)⟩

end PcieDriver.Edu.Probe
