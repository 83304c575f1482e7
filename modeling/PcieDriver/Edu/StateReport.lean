import PcieDriver.Edu.Faults

/-!
# What the state reports

`EDU_IOC_GET_STATE` copies four fields. A factorial stores its input when it starts and its output
when it ends, and a DMA test sets `dma_ok` when it passes. A call that fails takes nothing back.
-/

open Base

namespace PcieDriver.Edu

structure EduStateReq where
  lastIrq : BitVec 32
  lastFactIn : BitVec 32
  lastFactOut : BitVec 32
  dmaOk : BitVec 32
  deriving DecidableEq

/-- `EDU_IOC_GET_STATE`. `copied` tells whether `copy_to_user` worked. -/
def eduIocGetState (e : EduDev) (copied : Bool) : Except Errno EduStateReq :=
  if copied then .ok ⟨e.lastIrq, e.lastFactIn, e.lastFactOut, e.dmaOk⟩ else .error .efault

/-! ## The property and its condition -/

/-- The state goes with the last factorial and with the last DMA test. -/
structure Coherent (s : Journal) (state : EduStateReq) : Prop where
  factorial : ∀ c, s.factorials.getLast? = some c →
    state.lastFactIn = c.input ∧ c.ret = .ok state.lastFactOut
  dmaOk : state.dmaOk = 1 ↔ ∃ t, s.tests.getLast? = some t ∧ t.ret = .ok ()

/-- Both transfers ended in time, the pattern came back, and no fault was armed. -/
def TestCall.Passes (t : TestCall) : Prop := t.legs = 2 ∧ t.back = pattern ∧ t.fault ≠ 1

/-- The last factorial was woken in time, and the last DMA test passes if any did. -/
structure LastPass (s : Journal) : Prop where
  factorial : ∀ c, s.factorials.getLast? = some c → c.woken = true
  test : (∃ t ∈ s.tests, t.Passes) → ∃ t, s.tests.getLast? = some t ∧ t.Passes

/-! ## What the fields hold -/

/-- Where the fields that are reported come from. -/
structure Reported (s : Journal) : Prop where
  running : s.sys.pc.stage = .factorial → s.sys.dev.lastFactIn = s.input
  factIn : s.sys.pc.stage ≠ .factorial →
    ∀ c, s.factorials.getLast? = some c → s.sys.dev.lastFactIn = c.input
  factOut : ∀ c, s.factorials.getLast? = some c →
    c.ret = if c.woken then .ok s.sys.dev.lastFactOut else .error .etimedout
  dmaOk : s.sys.dev.dmaOk = 1 ↔ ∃ t ∈ s.tests, t.ret = .ok ()

theorem reported_journal (slab : Mem) (dmaHandle : BitVec 64) : Reported (journal slab dmaHandle) where
  running := fun h => by cases h
  factIn := fun _ _ h => by cases h
  factOut := fun _ h => by cases h
  dmaOk := by
    constructor
    · intro h
      exact absurd h (by simp [journal, start, eduOpen, eduProbe])
    · rintro ⟨t, ht, -⟩
      cases ht

section
variable {s : Journal}

theorem Reported.same (h : Reported s) {sys' : Sys} (hsame : SameLegacy s.sys sys') :
    Reported { s with sys := sys' } where
  running := by
    rw [hsame.stage, hsame.factIn]
    exact h.running
  factIn := by
    rw [hsame.stage, hsame.factIn]
    exact h.factIn
  factOut := by
    rw [hsame.factOut]
    exact h.factOut
  dmaOk := by
    rw [hsame.dmaOk]
    exact h.dmaOk

theorem Reported.factorialDone (h : Reported s) (hstage : s.sys.pc.stage = .factorial)
    {dev' : EduDev} {c : FactorialCall} (hinput : c.input = s.input)
    (hin : dev'.lastFactIn = s.sys.dev.lastFactIn) (hok : dev'.dmaOk = s.sys.dev.dmaOk)
    (hret : c.ret = if c.woken then .ok dev'.lastFactOut else .error .etimedout) :
    Reported
      { s with
        sys := { s.sys with dev := dev', pc := .idle }
        factorials := s.factorials ++ [c] } where
  running := fun hidle => by cases hidle
  factIn := by
    rintro - c' hlast
    rw [List.getLast?_concat, Option.some_inj] at hlast
    subst hlast
    rw [hinput, ← h.running hstage]
    exact hin
  factOut := by
    intro c' hlast
    rw [List.getLast?_concat, Option.some_inj] at hlast
    subst hlast
    exact hret
  dmaOk := by
    show dev'.dmaOk = 1 ↔ _
    rw [hok]
    exact h.dmaOk

theorem Reported.testDone (h : Reported s) (hstage : s.sys.pc.stage ≠ .factorial) {dev' : EduDev}
    {t : TestCall} (hin : dev'.lastFactIn = s.sys.dev.lastFactIn)
    (hout : dev'.lastFactOut = s.sys.dev.lastFactOut)
    (hok : dev'.dmaOk = if t.ret = .ok () then 1 else s.sys.dev.dmaOk) :
    Reported
      { s with
        sys := { s.sys with dev := dev', pc := .idle }
        tests := s.tests ++ [t] } where
  running := fun hidle => by cases hidle
  factIn := by
    rintro - c hlast
    exact hin.trans (h.factIn hstage c hlast)
  factOut := by
    intro c hlast
    show c.ret = if c.woken then .ok dev'.lastFactOut else _
    rw [hout]
    exact h.factOut c hlast
  dmaOk := by
    show dev'.dmaOk = 1 ↔ ∃ t' ∈ s.tests ++ [t], t'.ret = .ok ()
    rw [hok]
    split_ifs with hret
    · exact ⟨fun _ => ⟨t, List.mem_concat_self, hret⟩, fun _ => rfl⟩
    · rw [h.dmaOk]
      constructor
      · rintro ⟨t', ht', hret'⟩
        exact ⟨t', List.mem_append_left _ ht', hret'⟩
      · rintro ⟨t', ht', hret'⟩
        rw [List.mem_append, List.mem_singleton] at ht'
        rcases ht' with ht' | rfl
        · exact ⟨t', ht', hret'⟩
        · exact absurd hret' hret

theorem Reported.step (h : Reported s) (e : JournalEvent) : Reported (journalStep s e) := by
  have heff := @journal_effect s e
  generalize journalStep s e = s' at heff ⊢
  cases heff with
  | same e sys' hsame => exact h.same hsame
  | resetStats | stored => exact ⟨h.running, h.factIn, h.factOut, h.dmaOk⟩
  | factorialStart input hidle =>
    exact ⟨fun _ => rfl, fun hstage => absurd rfl hstage, h.factOut, h.dmaOk⟩
  | factorialWoken fact hpc =>
    exact h.factorialDone (congrArg LegacyPc.stage hpc) rfl rfl rfl rfl
  | factorialLate hpc => exact h.factorialDone (congrArg LegacyPc.stage hpc) rfl rfl rfl rfl
  | testStart hidle =>
    refine ⟨(fun hstage => by cases hstage), fun _ => h.factIn ?_, h.factOut, h.dmaOk⟩
    rw [hidle]
    decide
  | leg fact hpc =>
    refine ⟨(fun hstage => by cases hstage), fun _ => h.factIn ?_, h.factOut, h.dmaOk⟩
    rw [hpc]
    decide
  | testLate hpc =>
    refine h.testDone ?_ rfl rfl rfl
    rcases hpc with hpc | hpc <;> rw [hpc] <;> decide
  | testEnd fact hpc =>
    have hcase := finish_case s.sys.dev
    have hstage : s.sys.pc.stage ≠ .factorial := by
      rw [hpc]
      decide
    generalize dmaTestFinish s.sys.dev = out at hcase ⊢
    cases hcase with
    | differs | injected | passes => exact h.testDone hstage rfl rfl rfl

/-! ## The condition is exact -/

theorem TestCall.passes_iff (hkept : FlagKept s) {t : TestCall} (ht : t ∈ s.tests) :
    t.ret = .ok () ↔ t.Passes := by
  rw [hkept.expected t ht]
  exact t.expected_ok

theorem coherent_iff (h : Reported s) (hkept : FlagKept s) (hidle : s.sys.pc = .idle) :
    Coherent s ⟨s.sys.dev.lastIrq, s.sys.dev.lastFactIn, s.sys.dev.lastFactOut, s.sys.dev.dmaOk⟩ ↔
      LastPass s := by
  have hstage : s.sys.pc.stage ≠ .factorial := by
    rw [hidle]
    decide
  have hlast : ∀ t, s.tests.getLast? = some t → (t.ret = .ok () ↔ t.Passes) :=
    fun t ht => TestCall.passes_iff hkept (List.mem_of_getLast? ht)
  constructor
  · intro hco
    constructor
    · intro c hc
      have hret := h.factOut c hc
      rw [(hco.factorial c hc).2] at hret
      by_contra hlate
      rw [if_neg hlate] at hret
      cases hret
    · rintro ⟨t, ht, hpass⟩
      have hok : s.sys.dev.dmaOk = 1 := h.dmaOk.mpr ⟨t, ht, (TestCall.passes_iff hkept ht).mpr hpass⟩
      obtain ⟨t', ht', hret⟩ := hco.dmaOk.mp hok
      exact ⟨t', ht', (hlast t' ht').mp hret⟩
  · intro hpass
    constructor
    · intro c hc
      have hret := h.factOut c hc
      rw [if_pos (hpass.factorial c hc)] at hret
      exact ⟨h.factIn hstage c hc, hret⟩
    · constructor
      · intro hok
        obtain ⟨t, ht, hret⟩ := h.dmaOk.mp hok
        obtain ⟨t', ht', hpass'⟩ := hpass.test ⟨t, ht, (TestCall.passes_iff hkept ht).mp hret⟩
        exact ⟨t', ht', (hlast t' ht').mpr hpass'⟩
      · rintro ⟨t, ht, hret⟩
        exact h.dmaOk.mpr ⟨t, List.mem_of_getLast? ht, hret⟩

end

/-- **The state is coherent if and only if the last calls went well**, once no legacy call is under
way. -/
theorem state_coherent_iff (slab : Mem) (dmaHandle : BitVec 64) (es : List JournalEvent)
    (hidle : (run journalStep (journal slab dmaHandle) es).sys.pc = .idle) :
    let s := run journalStep (journal slab dmaHandle) es
    (∃ state, eduIocGetState s.sys.dev true = .ok state ∧ Coherent s state) ↔ LastPass s := by
  intro s
  have hreported : Reported s :=
    run_inv (fun _ e h => h.step e) (reported_journal slab dmaHandle)
  have hkept : FlagKept s := run_inv (fun _ e h => h.step e) (flagKept_journal slab dmaHandle)
  rw [← coherent_iff hreported hkept hidle]
  constructor
  · rintro ⟨state, hstate, hco⟩
    cases hstate
    exact hco
  · intro hco
    exact ⟨_, rfl, hco⟩

/-- A factorial that is woken with the output `fact`, or comes to the end of its time. -/
def factorialEvents (input fact : BitVec 32) (woken : Bool) : List JournalEvent :=
  [.driver (.factorial input), .driver .arm] ++
    if woken then [.driver (.irq (Work.factorial input).irqBit fact), .driver (.wake fact)]
    else [.driver .timeout]

theorem state_coherent_demo :
    let es := factorialEvents 9 362880 true ++ goodTest
    let s := run journalStep (journal (fun _ => 0) 0) es
    s.sys.pc = .idle ∧
      ((∃ state, eduIocGetState s.sys.dev true = .ok state ∧ Coherent s state) ↔ LastPass s) :=
  ⟨by decide, state_coherent_iff _ _ _ (by decide)⟩

/-- 6 is reported with the factorial of 5, and `dma_ok` outlives a test that timed out. -/
theorem stale_state :
    let s := run journalStep (journal (fun _ => 0) 0)
      (factorialEvents 5 120 true ++ factorialEvents 6 720 false)
    let s' := run journalStep (journal (fun _ => 0) 0)
      ((dmaTestEvents ⟨.waiting, .waiting, id, 0⟩ ++
        dmaTestEvents ⟨.never, .never, id, 0⟩).map .driver)
    eduIocGetState s.sys.dev true = .ok ⟨0, 6, 120, 0⟩ ∧ ¬ Coherent s ⟨0, 6, 120, 0⟩ ∧
      eduIocGetState s'.sys.dev true = .ok ⟨0, 0, 0, 1⟩ ∧ ¬ Coherent s' ⟨0, 0, 0, 1⟩ := by
  intro s s'
  have hfactorial : s.factorials.getLast? = some ⟨6, false, .error .etimedout⟩ := by decide
  have htest : s'.tests.getLast?.map TestCall.ret = some (.error .etimedout) := by decide
  refine ⟨by decide, fun hco => ?_, by decide, fun hco => ?_⟩
  · cases (hco.factorial _ hfactorial).2
  · obtain ⟨t, ht, hret⟩ := hco.dmaOk.mp rfl
    rw [ht, Option.map_some, hret] at htest
    cases htest

end PcieDriver.Edu
