import PcieDriver.Edu.Benchmark
import PcieDriver.Edu.Blocking

/-!
# The programs that block

`demo_legacy` and `demo_fault_injection` of `demo.cpp`, and the legacy tests of
`python/test_edu_device.py`. They pass exactly if the device and the handler do their part in time.
-/

open Base

namespace PcieDriver.Edu

/-! ## The programs -/

/-- `factorial(n)`, for a number that the program writes down. -/
def Call.fact (n : Nat) : Call := .factorial (.ofNat 32 n)

def demoLegacy : List Call := [0, 1, 5, 10, 12].map Call.fact ++ [.dmaTest, .getState]

/-- After `inject_fault` was set to 1. -/
def demoFaultInjection : List Call := [.dmaTest, .dmaTest]

/-- `TestFactorial`. Each of its tests opens the device anew. -/
def testFactorial : List (List Call) :=
  [0, 1, 5, 10, 12, 0, 1, 2, 3, 4, 6, 8].map fun n => [.fact n]

/-- `TestDmaTest`. -/
def testDmaTest : List (List Call) := [[.dmaTest], [.dmaTest, .getState]]

def testStateAfterFactorial : List Call := [.fact 9, .getState]

def legacyPrograms : List (List Call) :=
  demoLegacy :: testStateAfterFactorial :: testFactorial ++ testDmaTest

/-! ## When all goes well -/

/-- The answer to a call that is in time, on a device that computes and returns what it ought to. -/
def Record.right (r : Record) : Call → Record × Except Errno Response
  | .factorial n => r.computes n (factorial32 n)
  | .dmaTest => r.tests pattern
  | .getState => (r, .ok (.state r.state))

def Record.rights (r : Record) : List Call → List (Except Errno Response)
  | [] => []
  | c :: cs => (r.right c).2 :: (r.right c).1.rights cs

/-- The interrupts of the call are handled in its waits, and the device returns the pattern. -/
def Turn.Good (kicks : Nat) (t : Turn) : Prop :=
  match t.call with
  | .factorial n => t.first.Serves (legacyJob kicks (.factorial n))
  | .dmaTest => (t.first.Serves (legacyJob kicks .dma) ∧ t.second.Serves (legacyJob (kicks + 1) .dma)) ∧
      t.second.back = pattern
  | .getState => True

instance (kicks : Nat) : (t : Turn) → Decidable (t.Good kicks)
  | ⟨.factorial _, _, _, _⟩ => inferInstanceAs (Decidable (Leg.Serves _ _))
  | ⟨.dmaTest, _, _, _⟩ => inferInstanceAs (Decidable ((_ ∧ _) ∧ _))
  | ⟨.getState, _, _, _⟩ => isTrue trivial

def AllGood : Nat → List Turn → Prop
  | _, [] => True
  | kicks, t :: ts => t.Good kicks ∧ AllGood (kicks + t.call.kicks) ts

/-! ## Small operands -/

def Call.Small : Call → Prop
  | .factorial n => n.toNat ≤ 12
  | _ => True

instance (c : Call) : Decidable c.Small :=
  match c with
  | .factorial n => inferInstanceAs (Decidable (n.toNat ≤ 12))
  | .dmaTest | .getState => isTrue trivial

theorem small_legacyPrograms : ∀ calls ∈ legacyPrograms, ∀ c ∈ calls, c.Small := by
  decide

section
variable {factorial : BitVec 32 → BitVec 32} {r : Record} {kicks : Nat} {t : Turn}

theorem computes_eq (hdev : Computes factorial) {n : BitVec 32} (hn : n.toNat ≤ 12) :
    factorial n = factorial32 n := by
  have hfactorial := hdev n.toNat hn
  have hfactorial32 := factorial32_computes n.toNat hn
  rw [BitVec.ofNat_toNat, BitVec.setWidth_eq] at hfactorial hfactorial32
  exact BitVec.eq_of_toNat_eq (hfactorial.trans hfactorial32.symm)

/-! ## One call -/

theorem tests_right (hfault : r.fault ≠ 1) : r.tests pattern =
    ({ r with state := { r.state with lastIrq := Work.dma.irqBit, dmaOk := 1 } }, .ok .dmaTest) := by
  simp only [Record.tests, ne_eq, not_true_eq_false, if_false, hfault]

theorem tests_fault (hfault : r.fault = 1) : r.tests pattern =
    ({ r with state.lastIrq := Work.dma.irqBit, fault := 0 }, .error .eio) := by
  simp only [Record.tests, ne_eq, not_true_eq_false, if_false, hfault, if_true]

theorem tests_wrong {back : List Byte} (hback : back ≠ pattern) :
    r.tests back = ({ r with state.lastIrq := Work.dma.irqBit }, .error .eio) := by
  simp only [Record.tests, ne_eq, hback, not_false_eq_true, if_true]

theorem right_on_time (r : Record) (c : Call) : (r.right c).2 ≠ .error .etimedout := by
  unfold Record.right
  cases c with
  | factorial n => nofun
  | dmaTest =>
    by_cases hfault : r.fault = 1
    · rw [tests_fault hfault]
      nofun
    · rw [tests_right hfault]
      nofun
  | getState => nofun

theorem answer_good (hdev : Computes factorial) (hsmall : t.call.Small) (hgood : t.Good kicks) :
    r.answer factorial kicks t = r.right t.call := by
  unfold Record.answer Record.right
  unfold Turn.Good at hgood
  cases hcall : t.call with
  | factorial n =>
    rw [hcall] at hgood hsmall
    simp only [if_pos hgood, computes_eq hdev hsmall]
  | dmaTest =>
    rw [hcall] at hgood
    simp only [if_pos hgood.1, hgood.2]
  | getState => rfl

theorem answer_bad (hfault : t.call = .dmaTest → r.fault ≠ 1) (hbad : ¬ t.Good kicks) :
    (r.answer factorial kicks t).2 ≠ (r.right t.call).2 := by
  unfold Record.answer Record.right
  unfold Turn.Good at hbad
  cases hcall : t.call with
  | factorial n =>
    rw [hcall] at hbad
    simp only [if_neg hbad]
    nofun
  | dmaTest =>
    rw [hcall] at hbad
    simp only [tests_right (hfault hcall)]
    split_ifs with hin
    · rw [tests_wrong fun hback => hbad ⟨hin, hback⟩]
      nofun
    · nofun
  | getState =>
    rw [hcall] at hbad
    exact absurd trivial hbad

theorem bad_fault (hcall : t.call = .dmaTest) (hbad : ¬ t.Good kicks) :
    (r.answer factorial kicks t).1.fault = r.fault := by
  unfold Turn.Good at hbad
  unfold Record.answer
  rw [hcall] at hbad ⊢
  simp only
  split_ifs with hin
  · rw [tests_wrong fun hback => hbad ⟨hin, hback⟩]
  · rfl

theorem right_fault (hfault : r.fault ≠ 1) (c : Call) : (r.right c).1.fault ≠ 1 := by
  unfold Record.right
  cases c with
  | factorial n => exact hfault
  | dmaTest =>
    simp only [tests_right hfault]
    exact hfault
  | getState => exact hfault

/-! ## Whole programs -/

theorem answers_on_time {ts : List Turn} (h : (r.answer factorial kicks t).2 ≠ .error .etimedout) :
    r.answers factorial kicks (t :: ts) = (r.answer factorial kicks t).2 ::
      (r.answer factorial kicks t).1.answers factorial (kicks + t.call.kicks) ts := by
  unfold Record.answers
  generalize r.answer factorial kicks t = answer at h ⊢
  obtain ⟨r', ret⟩ := answer
  split
  · rename_i heq
    cases heq
    exact absurd rfl h
  · rename_i heq
    cases heq
    cases ts <;> rfl

theorem answers_head (factorial : BitVec 32 → BitVec 32) (r : Record) (kicks : Nat) (t : Turn)
    (ts : List Turn) :
    (r.answers factorial kicks (t :: ts)).head? = some (r.answer factorial kicks t).2 := by
  unfold Record.answers
  generalize r.answer factorial kicks t = answer
  split <;> rfl

theorem answers_iff (hdev : Computes factorial) (hfault : r.fault ≠ 1) {ts : List Turn}
    (hsmall : ∀ c ∈ ts.map Turn.call, c.Small) :
    r.answers factorial kicks ts = r.rights (ts.map Turn.call) ↔ AllGood kicks ts := by
  induction ts generalizing r kicks with
  | nil => exact iff_of_true rfl trivial
  | cons t ts ih =>
    rw [List.map_cons, List.forall_mem_cons] at hsmall
    rw [List.map_cons, Record.rights, AllGood]
    by_cases hgood : t.Good kicks
    · have hanswer : r.answer factorial kicks t = r.right t.call := answer_good hdev hsmall.1 hgood
      rw [answers_on_time (hanswer ▸ right_on_time r t.call), hanswer, List.cons.injEq,
        ih (right_fault hfault t.call) hsmall.2]
      exact and_congr_left fun _ => iff_of_true rfl hgood
    · refine iff_of_false (fun hanswers => ?_) fun h => hgood h.1
      have hhead := answers_head factorial r kicks t ts
      rw [hanswers] at hhead
      exact answer_bad (fun _ => hfault) hgood (Option.some.inj hhead).symm

/-- **These programs pass exactly if all goes well**: each interrupt is handled in the wait that is for
it, and the device returns the pattern of each DMA test. -/
theorem legacy_programs_pass_iff (hdev : Computes factorial) (b : Board) (ctx : Nat)
    (turns : List Turn) (hrests : b.DeviceRests) (hpc : b.sys.pc = .idle)
    (hfault : b.sys.dev.injectFault ≠ 1) (hturns : ∀ t ∈ turns, t.Ambient)
    (hprogram : turns.map Turn.call ∈ legacyPrograms) :
    (Port.construct factorial b ctx).board.ioctls factorial turns =
      (Record.of b.sys.dev).rights (turns.map Turn.call) ↔ AllGood b.kicks turns := by
  rw [ioctls_answers (construct_calm hrests ctx) hpc hturns]
  exact answers_iff hdev hfault (small_legacyPrograms _ hprogram)

/-- `test_state_after_factorial`, with the interrupt in time. -/
theorem legacy_programs_pass_iff_state :
    let first := servedLeg (legacyJob 0 (.factorial 9)) []
    let turns : List Turn := [⟨.fact 9, [], first, emptyLeg⟩, ⟨.getState, [], emptyLeg, emptyLeg⟩]
    (Port.construct factorial32 (.powered freshDev 0) 3).board.ioctls factorial32 turns =
      [.ok (.factorial ⟨9, 362880, 0x001⟩), .ok (.state ⟨0x001, 9, 362880, 0⟩)] := by
  intro first turns
  have hturns : ∀ t ∈ turns, t.Ambient := by
    intro t ht
    simp only [turns, List.mem_cons, List.not_mem_nil, or_false] at ht
    rcases ht with rfl | rfl
    · exact ⟨nofun, servedLeg_ambient _ nofun, emptyLeg_ambient⟩
    · exact ⟨nofun, emptyLeg_ambient, emptyLeg_ambient⟩
  exact (legacy_programs_pass_iff factorial32_computes (.powered freshDev 0) 3 turns
    ⟨rfl, rfl, rfl, rfl, rfl⟩ rfl (by decide) hturns (by simp [turns, legacyPrograms,
      testStateAfterFactorial])).mpr ⟨by decide, trivial, trivial⟩

example (r : Record) : r.rights testStateAfterFactorial =
    [.ok (.factorial ⟨9, 362880, 0x001⟩), .ok (.state ⟨0x001, 9, 362880, r.state.dmaOk⟩)] := rfl

/-! ### The fault -/

theorem answer_armed (hfault : r.fault = 1) (hcall : t.call = .dmaTest) :
    (r.answer factorial kicks t).2 ≠ .ok .dmaTest := by
  unfold Record.answer
  rw [hcall]
  simp only
  split_ifs with hin
  · by_cases hback : t.second.back = pattern
    · rw [hback, tests_fault hfault]
      nofun
    · rw [tests_wrong hback]
      nofun
  · nofun

theorem armed_answers_iff (hdev : Computes factorial) (hfault : r.fault = 1) {t' : Turn}
    (hcall : t.call = .dmaTest) (hcall' : t'.call = .dmaTest) :
    r.answers factorial kicks [t, t'] = [.error .eio, .ok .dmaTest] ↔ AllGood kicks [t, t'] := by
  rw [AllGood]
  by_cases hgood : t.Good kicks
  · have hanswer : r.answer factorial kicks t =
        ({ r with state.lastIrq := Work.dma.irqBit, fault := 0 }, .error .eio) := by
      rw [answer_good hdev (by rw [hcall]; trivial) hgood, hcall]
      exact tests_fault hfault
    rw [answers_on_time (by rw [hanswer]; nofun), hanswer, List.cons.injEq, and_iff_right rfl,
      and_iff_right hgood]
    generalize hr : ({ r with state.lastIrq := Work.dma.irqBit, fault := 0 } : Record) = r'
    have hiff : r'.answers factorial (kicks + t.call.kicks) [t'] = r'.rights ([t'].map Turn.call) ↔
        AllGood (kicks + t.call.kicks) [t'] :=
      answers_iff hdev (by simp [← hr]) (by simp [hcall', Call.Small])
    rw [← hiff, List.map_cons, List.map_nil, hcall', ← hr]
    rfl
  · refine iff_of_false (fun hanswers => ?_) fun h => hgood h.1
    have hhead := answers_head factorial r kicks t [t']
    have heio : (r.answer factorial kicks t).2 = .error .eio := by
      rw [hanswers] at hhead
      exact (Option.some.inj hhead).symm
    -- Without the injected error the first test fails for a reason of its own, and the flag stays.
    have hkept : (r.answer factorial kicks t).1.fault = 1 := (bad_fault hcall hgood).trans hfault
    rw [answers_on_time (by rw [heio]; nofun)] at hanswers
    have hrest := answers_head factorial (r.answer factorial kicks t).1 (kicks + t.call.kicks) t' []
    rw [(List.cons.inj hanswers).2] at hrest
    exact answer_armed hkept hcall' (Option.some.inj hrest).symm

/-- **The demo of the fault gets the error that it expects and then passes**, exactly if all goes well
beside the fault. An error that is not the injected one leaves the fault armed. -/
theorem demo_fault_injection_passes_iff (hdev : Computes factorial) (b : Board) (ctx : Nat)
    (turns : List Turn) (hrests : b.DeviceRests) (hpc : b.sys.pc = .idle)
    (hfault : b.sys.dev.injectFault = 1) (hturns : ∀ t ∈ turns, t.Ambient)
    (hprogram : turns.map Turn.call = demoFaultInjection) :
    (Port.construct factorial b ctx).board.ioctls factorial turns = [.error .eio, .ok .dmaTest] ↔
      AllGood b.kicks turns := by
  rw [ioctls_answers (construct_calm hrests ctx) hpc hturns]
  obtain ⟨t, ts, rfl, hcall, hrest⟩ := List.map_eq_cons_iff.mp hprogram
  obtain ⟨t', ts', rfl, hcall', hnil⟩ := List.map_eq_cons_iff.mp hrest
  obtain rfl := List.map_eq_nil_iff.mp hnil
  exact armed_answers_iff hdev hfault hcall hcall'

theorem demo_fault_injection_passes_iff_prompt :
    let b : Board := .powered { freshDev with injectFault := 1 } 0
    let back (kicks : Nat) := servedLeg (legacyJob kicks .dma) [.driver (.dmaWrite pattern)]
    let turns : List Turn := [⟨.dmaTest, [], servedLeg (legacyJob 0 .dma) [], back 1⟩,
      ⟨.dmaTest, [], servedLeg (legacyJob 2 .dma) [], back 3⟩]
    (Port.construct factorial32 b 3).board.ioctls factorial32 turns = [.error .eio, .ok .dmaTest] := by
  intro b back turns
  have hback (kicks : Nat) : ∀ e ∈ (back kicks).early ++ (back kicks).late, e.Ambient :=
    servedLeg_ambient _ (by simp [BoardEvent.Ambient])
  have hturns : ∀ t ∈ turns, t.Ambient := by
    intro t ht
    simp only [turns, List.mem_cons, List.not_mem_nil, or_false] at ht
    rcases ht with rfl | rfl
    · exact ⟨List.forall_mem_nil _, servedLeg_ambient _ (List.forall_mem_nil _), hback 1⟩
    · exact ⟨List.forall_mem_nil _, servedLeg_ambient _ (List.forall_mem_nil _), hback 3⟩
  exact (demo_fault_injection_passes_iff factorial32_computes b 3 turns ⟨rfl, rfl, rfl, rfl, rfl⟩ rfl
    rfl hturns rfl).mpr ⟨by decide, by decide, trivial⟩

end

end PcieDriver.Edu
