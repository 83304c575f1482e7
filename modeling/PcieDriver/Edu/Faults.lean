import PcieDriver.Edu.DmaTest
import PcieDriver.Edu.Journal

/-!
# Errors that are made up

A write of 1 to `inject_fault` makes one DMA test fail that would have passed. A test that fails of
itself leaves the flag for a later one.
-/

open Base

namespace PcieDriver.Edu

/-! ## What the journal says of the flag -/

/-- The last value was 1, and no test has failed because of it. -/
def Journal.Armed (s : Journal) : Prop :=
  s.stores.getLast? = some 1 ∧ ∀ t ∈ s.tests, t.injected = true → t.stores ≠ s.stores.length

structure FaultAccounts (s : Journal) : Prop where
  ok : ∀ t ∈ s.tests, t.ret = .ok () ↔ t.legs = 2 ∧ t.back = pattern ∧ t.fault = 0
  errors : s.sys.dev.statDmaErrors = s.tests.countP fun t => t.ret = .error .eio
  /-- An error that was made up goes back to a 1, and no two of them to the same. -/
  spent : ∀ t ∈ s.tests, t.injected = true → 0 < t.stores ∧ s.stores[t.stores - 1]? = some 1
  once : ((s.tests.filter TestCall.injected).map TestCall.stores).Nodup
  left : ∀ t ∈ s.tests, t.injected = false → t.left = t.fault
  armed : s.sys.dev.injectFault = 1 ↔ s.Armed

/-! ## The legs -/

def StageLegs (s : Journal) : Prop :=
  match s.sys.pc.stage with
  | .idle | .factorial => True
  | .first => s.legs = 0
  | .second => s.legs = 1

section
variable {s : Journal}

theorem StageLegs.first (h : StageLegs s) (hpc : s.sys.pc = .firstWaiting) : s.legs = 0 := by
  rwa [StageLegs, hpc] at h

theorem StageLegs.second (h : StageLegs s) (hpc : s.sys.pc = .secondWaiting) : s.legs = 1 := by
  rwa [StageLegs, hpc] at h

theorem StageLegs.step (h : StageLegs s) (e : JournalEvent) : StageLegs (journalStep s e) := by
  have heff := @journal_effect s e
  generalize journalStep s e = s' at heff ⊢
  cases heff with
  | same e sys' hsame =>
    simp only [StageLegs, hsame.stage]
    exact h
  | resetStats | stored => exact h
  | factorialStart | factorialWoken | factorialLate | testLate | testEnd => trivial
  | testStart => exact rfl
  | leg fact hpc => exact congrArg (· + 1) (h.first hpc)

end

/-! ## What a step does to the flag and the counter -/

/-- A test has returned, and `s'` is the state after it. -/
structure Returns (s s' : Journal) (t : TestCall) : Prop where
  tests : s'.tests = s.tests ++ [t]
  stores : s'.stores = s.stores
  number : t.stores = s.stores.length
  fault : t.fault = s.sys.dev.injectFault
  left : t.left = s'.sys.dev.injectFault
  ret : t.ret = t.expected
  takes : s'.sys.dev.injectFault = if t.injected then 0 else s.sys.dev.injectFault
  armed : t.injected = true → s.sys.dev.injectFault = 1
  errors : s'.sys.dev.statDmaErrors =
    s.sys.dev.statDmaErrors + if t.ret = .error .eio then 1 else 0

inductive FaultEffect (s : Journal) : JournalEvent → Journal → Prop
  | quiet (e s') (htests : s'.tests = s.tests) (hstores : s'.stores = s.stores)
      (hfault : s'.sys.dev.injectFault = s.sys.dev.injectFault)
      (herrors : s'.sys.dev.statDmaErrors = s.sys.dev.statDmaErrors) : FaultEffect s e s'
  | resetStats : FaultEffect s (.driver .resetStats)
      { s with sys := { s.sys with dev := eduDbgfsStatsWrite s.sys.dev } }
  | returned (e s' t) (hret : Returns s s' t) : FaultEffect s e s'
  | stored (e val) (hval : val = 0 ∨ val = 1) : FaultEffect s e
      { s with
        sys := { s.sys with dev := { s.sys.dev with injectFault := val } }
        stores := s.stores ++ [val] }

section
variable {s : Journal}

theorem late_returns (h : StageLegs s) (hpc : s.sys.pc = .firstWaiting ∨ s.sys.pc = .secondWaiting) :
    Returns s
      { s with
        sys := { s.sys with pc := .idle }
        tests := s.tests ++ [s.test s.legs s.sys.dev (.error .etimedout)] }
      (s.test s.legs s.sys.dev (.error .etimedout)) := by
  have hlegs : s.legs ≠ 2 := by
    rcases hpc with hpc | hpc
    · rw [h.first hpc]
      decide
    · rw [h.second hpc]
      decide
  refine ⟨rfl, rfl, rfl, rfl, rfl, (if_pos hlegs).symm, rfl, ?_, rfl⟩
  intro hinjected
  simp [TestCall.injected, Journal.test] at hinjected

theorem end_returns (h : StageLegs s) (hpc : s.sys.pc = .secondWaiting) :
    Returns s
      { s with
        sys := { s.sys with dev := (dmaTestFinish s.sys.dev).1, pc := .idle }
        tests := s.tests ++
          [s.test (s.legs + 1) (dmaTestFinish s.sys.dev).1 (dmaTestFinish s.sys.dev).2] }
      (s.test (s.legs + 1) (dmaTestFinish s.sys.dev).1 (dmaTestFinish s.sys.dev).2) := by
  have hlegs : ¬ s.legs + 1 ≠ 2 := by simp [h.second hpc]
  have hret : (dmaTestFinish s.sys.dev).2 =
      (s.test (s.legs + 1) (dmaTestFinish s.sys.dev).1 (dmaTestFinish s.sys.dev).2).expected :=
    (finish_ret s.sys.dev).trans (if_neg hlegs).symm
  have hcase := finish_case s.sys.dev
  generalize dmaTestFinish s.sys.dev = out at hcase hret ⊢
  cases hcase with
  | differs hback =>
    have hreal : (s.test (s.legs + 1)
        { s.sys.dev with statDmaErrors := s.sys.dev.statDmaErrors + 1 }
        (.error .eio)).injected = false := decide_eq_false fun h => hback h.2
    refine ⟨rfl, rfl, rfl, rfl, rfl, hret, ?_, ?_, rfl⟩
    · rw [hreal]
      rfl
    · rw [hreal]
      exact fun h => by cases h
  | injected hback hfault =>
    have hmade : (s.test (s.legs + 1)
        { s.sys.dev with injectFault := 0, statDmaErrors := s.sys.dev.statDmaErrors + 1 }
        (.error .eio)).injected = true := decide_eq_true ⟨rfl, hback⟩
    refine ⟨rfl, rfl, rfl, rfl, rfl, hret, ?_, fun _ => hfault, rfl⟩
    rw [hmade]
    rfl
  | passes hback hfault =>
    have hpassed : (s.test (s.legs + 1) { s.sys.dev with dmaOk := 1 } (.ok ())).injected = false :=
      decide_eq_false fun h => by cases h.1
    refine ⟨rfl, rfl, rfl, rfl, rfl, hret, ?_, ?_, rfl⟩
    · rw [hpassed]
      rfl
    · rw [hpassed]
      exact fun h => by cases h

theorem fault_effect (h : StageLegs s) (e : JournalEvent) : FaultEffect s e (journalStep s e) := by
  have heff := @journal_effect s e
  generalize journalStep s e = s' at heff ⊢
  cases heff with
  | same e sys' hsame => exact .quiet _ _ rfl rfl hsame.fault hsame.errors
  | resetStats => exact .resetStats
  | factorialStart | factorialWoken | factorialLate | testStart | leg => exact .quiet _ _ rfl rfl rfl rfl
  | testLate hpc => exact .returned _ _ _ (late_returns h hpc)
  | testEnd fact hpc => exact .returned _ _ _ (end_returns h hpc)
  | stored val count hval => exact .stored _ val hval

/-! ## What every run keeps -/

/-- The flag is 0 or 1, and each 1 is used once. -/
structure FlagKept (s : Journal) : Prop where
  legs : StageLegs s
  expected : ∀ t ∈ s.tests, t.ret = t.expected
  bit : s.sys.dev.injectFault = 0 ∨ s.sys.dev.injectFault = 1
  faults : ∀ t ∈ s.tests, t.fault = 0 ∨ t.fault = 1
  numbers : ∀ t ∈ s.tests, t.stores ≤ s.stores.length
  spent : ∀ t ∈ s.tests, t.injected = true → 0 < t.stores ∧ s.stores[t.stores - 1]? = some 1
  once : ((s.tests.filter TestCall.injected).map TestCall.stores).Nodup
  left : ∀ t ∈ s.tests, t.injected = false → t.left = t.fault
  armed : s.sys.dev.injectFault = 1 ↔ s.Armed

theorem flagKept_journal (slab : Mem) (dmaHandle : BitVec 64) : FlagKept (journal slab dmaHandle) where
  legs := trivial
  expected := fun _ ht => by cases ht
  bit := .inl rfl
  faults := fun _ ht => by cases ht
  numbers := fun _ ht => by cases ht
  spent := fun _ ht => by cases ht
  once := .nil
  left := fun _ ht => by cases ht
  armed := by
    constructor
    · intro h
      exact absurd h (by simp [journal, start, eduOpen, eduProbe])
    · intro h
      cases h.1

section
variable {s' : Journal} {t : TestCall} (h : Returns s s' t) (hkept : FlagKept s)
include h

theorem Returns.mem {p : TestCall → Prop} (hold : ∀ t' ∈ s.tests, p t') (hnew : p t) :
    ∀ t' ∈ s'.tests, p t' := by
  intro t' ht'
  rw [h.tests, List.mem_append, List.mem_singleton] at ht'
  rcases ht' with ht' | rfl
  · exact hold t' ht'
  · exact hnew

include hkept

/-- An error that is made up uses the last value, and is the first to do so. -/
theorem Returns.fresh (hmade : t.injected = true) : s.stores.getLast? = some 1 ∧
    t.stores ∉ (s.tests.filter TestCall.injected).map TestCall.stores := by
  obtain ⟨hlast, hnone⟩ := hkept.armed.mp (h.armed hmade)
  refine ⟨hlast, ?_⟩
  rw [h.number, List.mem_map]
  rintro ⟨t', ht', hnumber⟩
  obtain ⟨hmem, hmade'⟩ := List.mem_filter.mp ht'
  exact hnone t' hmem hmade' hnumber

theorem Returns.spent (hmade : t.injected = true) :
    0 < t.stores ∧ s'.stores[t.stores - 1]? = some 1 := by
  obtain ⟨hlast, -⟩ := h.fresh hkept hmade
  rw [List.getLast?_eq_getElem?] at hlast
  obtain ⟨hin, -⟩ := List.getElem?_eq_some_iff.mp hlast
  rw [h.stores, h.number]
  exact ⟨by omega, hlast⟩

theorem Returns.once : ((s'.tests.filter TestCall.injected).map TestCall.stores).Nodup := by
  rw [h.tests, List.filter_append, List.map_append]
  cases hmade : t.injected with
  | false => simpa [hmade] using hkept.once
  | true =>
    obtain ⟨-, hnew⟩ := h.fresh hkept hmade
    rw [List.filter_cons_of_pos hmade, List.filter_nil, List.map_singleton,
      ← List.concat_eq_append]
    exact hkept.once.concat hnew

theorem Returns.armed_iff : s'.sys.dev.injectFault = 1 ↔ s'.Armed := by
  rw [h.takes]
  cases hmade : t.injected with
  | false =>
    have hsame : s'.Armed ↔ s.Armed := by
      unfold Journal.Armed
      rw [h.stores]
      refine and_congr_right fun _ => ⟨fun hall t' ht' => hall t' ?_, fun hall => h.mem hall ?_⟩
      · rw [h.tests]
        exact List.mem_append_left _ ht'
      · rw [hmade]
        exact fun hfalse => by cases hfalse
    rw [hsame]
    exact hkept.armed
  | true =>
    rw [if_pos rfl]
    refine ⟨fun hzero => absurd hzero (by decide), fun harmed => ?_⟩
    refine absurd ?_ (harmed.2 t ?_ hmade)
    · rw [h.number, h.stores]
    · rw [h.tests]
      exact List.mem_concat_self

theorem Returns.flagKept (hlegs : StageLegs s') : FlagKept s' where
  legs := hlegs
  expected := h.mem hkept.expected h.ret
  bit := by
    rw [h.takes]
    split_ifs
    · exact .inl rfl
    · exact hkept.bit
  faults := h.mem hkept.faults (h.fault ▸ hkept.bit)
  numbers := by
    rw [h.stores]
    exact h.mem hkept.numbers h.number.le
  spent := by
    refine h.mem (p := fun t => t.injected = true → 0 < t.stores ∧ s'.stores[t.stores - 1]? = some 1)
      ?_ (h.spent hkept)
    rw [h.stores]
    exact hkept.spent
  once := h.once hkept
  left := by
    apply h.mem hkept.left
    intro hreal
    rw [h.left, h.takes, hreal, h.fault]
    rfl
  armed := h.armed_iff hkept

end

theorem FlagKept.stored (h : FlagKept s) {val : BitVec 32} (hval : val = 0 ∨ val = 1) :
    FlagKept
      { s with
        sys := { s.sys with dev := { s.sys.dev with injectFault := val } }
        stores := s.stores ++ [val] } where
  legs := h.legs
  expected := h.expected
  bit := hval
  faults := h.faults
  numbers := by
    intro t ht
    rw [List.length_append]
    exact (h.numbers t ht).trans (Nat.le_add_right _ _)
  spent := by
    intro t ht hmade
    obtain ⟨hpos, hone⟩ := h.spent t ht hmade
    obtain ⟨hin, -⟩ := List.getElem?_eq_some_iff.mp hone
    exact ⟨hpos, by rwa [List.getElem?_append_left hin]⟩
  once := h.once
  left := h.left
  armed := by
    have hlater : ∀ t ∈ s.tests, t.injected = true → t.stores ≠ (s.stores ++ [val]).length := by
      intro t ht _ heq
      rw [List.length_append, List.length_singleton] at heq
      have hle := h.numbers t ht
      omega
    show val = 1 ↔ (s.stores ++ [val]).getLast? = some 1 ∧ _
    rw [List.getLast?_concat, Option.some_inj]
    exact ⟨fun hone => ⟨hone, hlater⟩, And.left⟩

theorem FlagKept.step (h : FlagKept s) (e : JournalEvent) : FlagKept (journalStep s e) := by
  have hlegs := h.legs.step e
  have heff := fault_effect h.legs e
  generalize journalStep s e = s' at hlegs heff ⊢
  cases heff with
  | quiet _ _ htests hstores hfault _ =>
    have harmed : s'.Armed ↔ s.Armed := by
      rw [Journal.Armed, htests, hstores]
      rfl
    refine ⟨hlegs, ?_, ?_, ?_, ?_, ?_, ?_, ?_, ?_⟩
    · rw [htests]; exact h.expected
    · rw [hfault]; exact h.bit
    · rw [htests]; exact h.faults
    · rw [htests, hstores]; exact h.numbers
    · rw [htests, hstores]; exact h.spent
    · rw [htests]; exact h.once
    · rw [htests]; exact h.left
    · rw [hfault, harmed]; exact h.armed
  | resetStats =>
    exact ⟨h.legs, h.expected, h.bit, h.faults, h.numbers, h.spent, h.once, h.left, h.armed⟩
  | returned _ _ t hret => exact hret.flagKept h hlegs
  | stored _ val hval => exact h.stored hval

/-- The counter goes with the errors as long as nobody resets it. -/
def ErrorsCounted (s : Journal) : Prop :=
  s.sys.dev.statDmaErrors = s.tests.countP fun t => t.ret = .error .eio

theorem ErrorsCounted.step (h : ErrorsCounted s) (hlegs : StageLegs s) {e : JournalEvent}
    (he : e ≠ .driver .resetStats) : ErrorsCounted (journalStep s e) := by
  have heff := fault_effect hlegs e
  generalize journalStep s e = s' at heff ⊢
  unfold ErrorsCounted at h ⊢
  cases heff with
  | quiet _ _ htests _ _ herrors => rw [htests, herrors, h]
  | resetStats => exact absurd rfl he
  | returned _ _ t hret =>
    rw [hret.tests, hret.errors, List.countP_append, h, List.countP_singleton]
    simp only [decide_eq_true_eq]
  | stored => exact h

theorem FlagKept.accounts (h : FlagKept s) (herrors : ErrorsCounted s) : FaultAccounts s where
  ok := by
    intro t ht
    have hbit : t.fault = 0 ↔ t.fault ≠ 1 := by
      rcases h.faults t ht with hfault | hfault <;> rw [hfault] <;> decide
    rw [h.expected t ht, hbit]
    exact t.expected_ok
  errors := herrors
  spent := h.spent
  once := h.once
  left := h.left
  armed := h.armed

end

/-- **Errors are counted and made up as asked**: after any writes of `inject_fault` and any other
events but a reset of the counters, in every state. -/
theorem fault_accounts (slab : Mem) (dmaHandle : BitVec 64) (es : List JournalEvent)
    (hes : ∀ e ∈ es, e ≠ .driver .resetStats) :
    Always journalStep FaultAccounts (journal slab dmaHandle) es := by
  have hkept : Always journalStep (fun s => FlagKept s ∧ ErrorsCounted s)
      (journal slab dmaHandle) es := by
    apply Always.of_step (P := fun _ e => e ≠ .driver .resetStats)
    · exact fun s e h he => ⟨h.1.step e, h.2.step h.1.legs he⟩
    · exact ⟨flagKept_journal slab dmaHandle, rfl⟩
    · exact along_of_forall fun _ => hes
  exact hkept.mono fun _ h => h.1.accounts h.2

def goodTest : List JournalEvent := (dmaTestEvents ⟨.waiting, .waiting, id, 0⟩).map .driver

/-- The demo: arm, fail, recover. -/
theorem fault_accounts_demo :
    let es := .injectFault (.ok 1) 2 :: goodTest ++ goodTest
    Always journalStep FaultAccounts (journal (fun _ => 0) 0) es ∧
      (run journalStep (journal (fun _ => 0) 0) es).tests.map TestCall.ret =
        [.error .eio, .ok ()] :=
  ⟨fault_accounts _ _ _ (by decide), by decide⟩

end PcieDriver.Edu
