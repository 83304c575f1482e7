import PcieDriver.Base.Codec
import PcieDriver.Base.Ioc
import PcieDriver.Ring.Device

/-!
# The headers

The four copies of `proto_pcie.h`: `pcie_prototype` and `pcie_prototype_sim` have the same one, the
ring driver has two more requests, and `pcie_prototype_async` numbers the later ones otherwise.
-/

open Base
open PcieDriver.Ring (ProtoPcieInfo ProtoPcieCommand ProtoPcieRingState)

namespace PcieDriver.Wire

/-! ## The structures -/

def info : Codec ProtoPcieInfo :=
  (Codec.u32.pair <| Codec.u32.pair <| Codec.u32.pair Codec.u32).named
    (fun i => (i.bar0Len, i.irq, i.ringEntries, i.ringEntrySize))
    (fun (bar0Len, irq, ringEntries, ringEntrySize) => ⟨bar0Len, irq, ringEntries, ringEntrySize⟩)
    (fun _ => rfl)

def command : Codec ProtoPcieCommand :=
  (Codec.u32.pair <| Codec.u32.pair <| Codec.bytes Ring.protoPcieMaxPayload).named
    (fun c => (c.opcode, c.length, c.payload))
    (fun (opcode, length, payload) => ⟨opcode, length, payload⟩)
    (fun _ => rfl)

def ringState : Codec ProtoPcieRingState :=
  (Codec.u32.pair <| Codec.u32.pair <| Codec.u32.pair <| Codec.u32.pair <| Codec.u32.pair <|
    Codec.u32.pair <| Codec.u32.pair <| Codec.u32.pair <| Codec.u32.pair <| Codec.u32.pair
    Codec.u32).named
    (fun s => (s.cmdHead, s.cmdTail, s.cmdPending, s.compHead, s.compTail, s.compPending,
      s.completedTotal, s.lastOpcode, s.lastLength, s.lastStatus, s.nextSeqno))
    (fun (cmdHead, cmdTail, cmdPending, compHead, compTail, compPending, completedTotal, lastOpcode,
        lastLength, lastStatus, nextSeqno) =>
      ⟨cmdHead, cmdTail, cmdPending, compHead, compTail, compPending, completedTotal, lastOpcode,
        lastLength, lastStatus, nextSeqno⟩)
    (fun _ => rfl)

/-- The size of `struct proto_pcie_wait`, which only the last header has. -/
def waitSize : Nat := 16

/-! ## The requests -/

inductive Request
  | getInfo | reset | sendCmd | getStatus | processPending | getRingState | waitCompletion
  deriving DecidableEq

def Request.all : List Request :=
  [.getInfo, .reset, .sendCmd, .getStatus, .processPending, .getRingState, .waitCompletion]

def protoPcieIocMagic : BitVec 8 := 0x50

def protoPcieIocGetInfo : Ioc := ior protoPcieIocMagic 1 info.size
def protoPcieIocReset : Ioc := io protoPcieIocMagic 2
def protoPcieIocSendCmd : Ioc := iow protoPcieIocMagic 3 command.size
def protoPcieIocGetStatus : Ioc := ior protoPcieIocMagic 4 Codec.u32.size

/-- What a header defines. -/
abbrev Header := Request → Option Ioc

/-- `pcie_prototype/kernel/proto_pcie.h` and `pcie_prototype_sim/kernel/proto_pcie.h`. -/
def basicHeader : Header
  | .getInfo => some protoPcieIocGetInfo
  | .reset => some protoPcieIocReset
  | .sendCmd => some protoPcieIocSendCmd
  | .getStatus => some protoPcieIocGetStatus
  | .processPending | .getRingState | .waitCompletion => none

/-- `pcie_prototype_ring/kernel/proto_pcie.h`. -/
def ringHeader : Header
  | .processPending => some (io protoPcieIocMagic 5)
  | .getRingState => some (ior protoPcieIocMagic 6 ringState.size)
  | .waitCompletion => none
  | r => basicHeader r

/-- `pcie_prototype_async/kernel/proto_pcie.h`. -/
def asyncHeader : Header
  | .processPending => none
  | .getRingState => some (ior protoPcieIocMagic 5 ringState.size)
  | .waitCompletion => some (iowr protoPcieIocMagic 6 waitSize)
  | r => basicHeader r

/-- One of the headers of the repository. -/
def Known (h : Header) : Prop := h = basicHeader ∨ h = ringHeader ∨ h = asyncHeader

theorem basicHeader_known : Known basicHeader := .inl rfl

/-- No number means two things, whichever headers it is looked up in. -/
theorem one_meaning {h h' : Header} (hh : Known h) (hh' : Known h') {r r' : Request} {c : Ioc}
    (hr : h r = some c) (hr' : h' r' = some c) : r = r' := by
  have key : ∀ r r' : Request, h r ≠ none → h r = h' r' → r = r' := by
    rcases hh with rfl | rfl | rfl <;> rcases hh' with rfl | rfl | rfl <;> intro r r' <;>
      cases r <;> cases r' <;> decide
  exact key r r' (by simp [hr]) (hr.trans hr'.symm)

/-- `switch (cmd)`, after the check of the type. -/
def Header.decode (h : Header) (cmd : BitVec 32) : Option Request :=
  if (Ioc.ofWord cmd).type ≠ protoPcieIocMagic then none
  else Request.all.find? fun r => (h r).map Ioc.word = some cmd

theorem type_of_known {h : Header} (hh : Known h) {r : Request} {c : Ioc} (hr : h r = some c) :
    c.type = protoPcieIocMagic := by
  have key : ∀ r : Request, ∀ c ∈ h r, c.type = protoPcieIocMagic := by
    rcases hh with rfl | rfl | rfl <;> intro r <;> cases r <;> decide
  exact key r c hr

/-- A number is taken for the request that it means here, or for none. -/
theorem decode_word {h h' : Header} (hh : Known h) (hh' : Known h') {r : Request} {c : Ioc}
    (hr : h r = some c) : h'.decode c.word = if h' r = some c then some r else none := by
  have htype : ¬ (Ioc.ofWord c.word).type ≠ protoPcieIocMagic := by
    rw [Ioc.ofWord_word, not_not]
    exact type_of_known hh hr
  have hmeans (r' : Request) : (h' r').map Ioc.word = some c.word ↔ h' r' = some c := by
    rw [Option.map_eq_some_iff]
    constructor
    · rintro ⟨c', hc', hword⟩
      rw [hc', Ioc.word_inj hword]
    · exact fun hc => ⟨c, hc, rfl⟩
  rw [Header.decode, if_neg htype]
  simp only [hmeans]
  split_ifs with hsame
  · have honly (r' : Request) : h' r' = some c ↔ r' = r :=
      ⟨fun hr' => one_meaning hh' hh hr' hr, fun hr' => hr' ▸ hsame⟩
    simp only [honly]
    cases r <;> decide
  · rw [List.find?_eq_none]
    intro r' _ hr'
    rw [decide_eq_true_eq] at hr'
    exact hsame (one_meaning hh' hh hr' hr ▸ hr')

end PcieDriver.Wire
