import PcieDriver.Edu.RoundTrips

/-!
# The programs that come with the driver

`python/benchmark.py`, the batch of `python/test_edu_device.py` and the throughput demo of `demo.cpp`
are loops of round trips. Each command is a small factorial.
-/

open Base

namespace PcieDriver.Edu

/-! ## The loops -/

def warmupOps : Nat := 32
def measureOps : Nat := 256
def latencyOps : Nat := 512
def queueDepths : List Nat := [1, 2, 4, 8, 16, 32]

/-- `submit_factorial`, or `submit_factorial_zc`. With `drain` the status is checked. -/
def factorialOp (zc drain : Bool) (tag n : Nat) : Op :=
  ⟨zc, drain, ⟨.ofNat 16 tag, eduOpFactorial, .ofNat 32 n⟩⟩

/-- A loop of round trips, with the tags that all these programs use. -/
def factorialOps (zc drain : Bool) (n : Nat → Nat) (ops : Nat) : List Op :=
  (List.range ops).map fun i => factorialOp zc drain (i % 65535) (n i)

/-- `(tag % 12) + 1`. -/
def cycle (i : Nat) : Nat := i % 12 + 1

def runBatch (totalOps : Nat) : List Op := factorialOps false false cycle totalOps

/-- The tag goes on from the warm-up to the measurement. -/
def measureLatency : List Op := factorialOps false true cycle (warmupOps + latencyOps)

def measureThroughput : List Op :=
  queueDepths.flatMap fun _ => runBatch warmupOps ++ runBatch measureOps

/-- Between `map_rings` and `unmap_rings`. -/
def measureZcVsIoctl : List Op :=
  factorialOps false true (fun _ => 5) warmupOps ++ factorialOps true true (fun _ => 5) warmupOps ++
    factorialOps false true (fun _ => 5) latencyOps ++ factorialOps true true (fun _ => 5) latencyOps

def testBatchCompletions : List Op := factorialOps false true (· + 1) 8

def demoThroughput : List Op := factorialOps false false cycle 64

def programs : List (List Op) :=
  [measureLatency, measureThroughput, measureZcVsIoctl, testBatchCompletions, demoThroughput]

/-! ## Small factorials -/

/-- The device computes the factorials that fit into 32 bits. -/
def Computes (factorial : BitVec 32 → BitVec 32) : Prop :=
  ∀ n ≤ 12, (factorial (.ofNat 32 n)).toNat = n.factorial

theorem factorial_lt {n : Nat} (h : n ≤ 12) : n.factorial < 2 ^ 32 :=
  lt_of_le_of_lt (Nat.factorial_le h) (by decide)

theorem factorial32_computes : Computes factorial32 := by
  intro n hn
  have hsmall : n % 2 ^ 32 = n := Nat.mod_eq_of_lt (by omega)
  rw [factorial32, BitVec.toNat_ofNat, BitVec.toNat_ofNat, hsmall]
  exact Nat.mod_eq_of_lt (factorial_lt hn)

structure Small (op : Op) : Prop where
  opcode : op.req.opcode = eduOpFactorial
  operand : op.req.operand.toNat ≤ 12

theorem small_factorialOp (zc drain : Bool) (tag : Nat) {n : Nat} (h : n ≤ 12) :
    Small (factorialOp zc drain tag n) := by
  refine ⟨rfl, ?_⟩
  show (BitVec.ofNat 32 n).toNat ≤ 12
  rw [BitVec.toNat_ofNat]
  exact (Nat.mod_le _ _).trans h

theorem small_factorialOps {zc drain : Bool} {n : Nat → Nat} {ops : Nat} (h : ∀ i < ops, n i ≤ 12) :
    ∀ op ∈ factorialOps zc drain n ops, Small op := by
  intro op hop
  obtain ⟨i, hi, rfl⟩ := List.mem_map.mp hop
  exact small_factorialOp _ _ _ (h i (List.mem_range.mp hi))

theorem cycle_le (i : Nat) : cycle i ≤ 12 := by
  unfold cycle
  omega

theorem small_programs {ops : List Op} (hops : ops ∈ programs) : ∀ op ∈ ops, Small op := by
  intro op hop
  simp only [programs, List.mem_cons, List.not_mem_nil, or_false] at hops
  rcases hops with hops | hops | hops | hops | hops <;> rw [hops] at hop
  · exact small_factorialOps (fun i _ => cycle_le i) op hop
  · obtain ⟨-, -, hop⟩ := List.mem_flatMap.mp hop
    rcases List.mem_append.mp hop with hop | hop
    · exact small_factorialOps (fun i _ => cycle_le i) op hop
    · exact small_factorialOps (fun i _ => cycle_le i) op hop
  · rcases List.mem_append.mp hop with hop | hop
    · rcases List.mem_append.mp hop with hop | hop
      · rcases List.mem_append.mp hop with hop | hop
        · exact small_factorialOps (fun _ _ => by decide) op hop
        · exact small_factorialOps (fun _ _ => by decide) op hop
      · exact small_factorialOps (fun _ _ => by decide) op hop
    · exact small_factorialOps (fun _ _ => by decide) op hop
  · exact small_factorialOps (fun i hi => by omega) op hop
  · exact small_factorialOps (fun i _ => cycle_le i) op hop

theorem Small.valid {op : Op} (h : Small op) : ValidOpcode op.req := .inl h.opcode

/-! ## The results -/

/-- The completion of a factorial command: its tag, and the exact result. -/
structure Right (op : Op) (c : EduCompletionReq) : Prop where
  tag : c.tag = op.req.tag
  status : c.status = 0
  result : c.result.toNat = op.req.operand.toNat.factorial

section
variable {factorial : BitVec 32 → BitVec 32}

theorem right_answer (hdev : Computes factorial) {op : Op} (h : Small op) :
    Right op (answer factorial op.req) := by
  refine ⟨rfl, rfl, ?_⟩
  have hresult := hdev op.req.operand.toNat h.operand
  rw [BitVec.ofNat_toNat, BitVec.setWidth_eq] at hresult
  rw [answer, expected, if_pos h.opcode]
  exact hresult

theorem right_answers (hdev : Computes factorial) {todo : List (Op × Round)}
    (h : ∀ t ∈ todo, Small t.1) :
    List.Forall₂ Right (todo.map Prod.fst) (answers factorial todo) := by
  rw [answers, List.forall₂_map_left_iff, List.forall₂_map_right_iff, List.forall₂_same]
  exact fun t ht => right_answer hdev (h t ht)

/-- **All that these programs print is right**, on a new handle or on one that was used before: each
completion has the tag of its command and the exact factorial of its operand, and only a timeout ends
a program early. The handle is then as good as it was. -/
theorem programs_right (hdev : Computes factorial) {p : Port} {kicks calls : Nat}
    (hready : p.board.Ready factorial kicks calls) (timeoutMs : CInt) {ops : List Op}
    (hops : ops ∈ programs) (hmapped : ∀ op ∈ ops, op.zc = true → p.handle.ringsMapped = true)
    {rounds : List Round} (hlength : ops.length = rounds.length)
    (hrounds : ∀ r ∈ rounds, r.Elsewhere)
    (h0 : 0 ≤ timeoutMs.val) (hfits : timeoutMs.val ≤ 2147483) :
    let served := p.serve factorial timeoutMs (ops.zip rounds)
    List.Forall₂ Right (ops.take served.2.1.length) served.2.1 ∧
      (served.2.2 = none ∨ served.2.2 = some .timeout) ∧
      (served.2.2 = none ↔ Punctual timeoutMs.val.toNat kicks calls (ops.zip rounds)) ∧
      (served.2.2 = none → served.2.1.length = ops.length ∧
        served.1.board.Ready factorial (kicks + ops.length) (calls + ops.length)) := by
  intro served
  obtain ⟨ms, hms⟩ := Int.eq_ofNat_of_zero_le h0
  have hfst : (ops.zip rounds).map Prod.fst = ops := List.map_fst_zip (le_of_eq hlength)
  have hzip : (ops.zip rounds).length = ops.length := by
    rw [List.length_zip, ← hlength, Nat.min_self]
  have hmem : ∀ t ∈ ops.zip rounds, t.1 ∈ ops ∧ t.2 ∈ rounds := fun t ht => List.of_mem_zip ht
  obtain ⟨hserved, hiff⟩ : Served factorial kicks calls (ops.zip rounds) served ∧
      (served.2.2 = none ↔ Punctual ms kicks calls (ops.zip rounds)) := by
    refine serve_served hms (by omega) hready fun t ht => ?_
    have hsmall := small_programs hops t.1 (hmem t ht).1
    exact ⟨⟨hsmall.valid, hmapped _ (hmem t ht).1⟩, hrounds _ (hmem t ht).2⟩
  have hright := right_answers hdev fun t ht => small_programs hops t.1 (hmem t ht).1
  rw [hfst] at hright
  refine ⟨?_, hserved.stop, ?_, fun hnone => ?_⟩
  · have htake := List.forall₂_take served.2.1.length hright
    rwa [← List.prefix_iff_eq_take.mp hserved.answers] at htake
  · rw [hms, Int.toNat_natCast]
    exact hiff
  · obtain ⟨hall, hend⟩ := hserved.all hnone
    rw [hzip] at hend
    refine ⟨?_, hend⟩
    rw [hall, answers, List.length_map, hzip]

/-- The latency and then the throughput, on one handle and with a device that is never late, after
another program that never read its completion. -/
theorem programs_right_in_turn :
    let c : Cmd := ⟨0, 5, ⟨9, eduOpDmaTest, 0⟩⟩
    let history : List BoardEvent :=
      [.driver (.submit 5 c.req), .kick c, .finish (jobOf 0 c), .irqEnter, .irqPost]
    let b := run (boardStep factorial32) (.powered freshDev 0) history
    let timeoutMs : CInt := ⟨2000, by decide, by decide⟩
    ∃ latency throughput,
      latency = (Port.start factorial32 b 3 false).serve factorial32 timeoutMs
        (measureLatency.zip (swiftRounds b.kicks b.sys.calls measureLatency)) ∧
      throughput = latency.1.serve factorial32 timeoutMs (measureThroughput.zip (swiftRounds
        (b.kicks + measureLatency.length) (b.sys.calls + measureLatency.length) measureThroughput)) ∧
      latency.2.2 = none ∧ List.Forall₂ Right measureLatency latency.2.1 ∧
      throughput.2.2 = none ∧ List.Forall₂ Right measureThroughput throughput.2.1 := by
  intro c history b timeoutMs
  have hrests : b.DeviceRests := ⟨by decide, by decide, by decide, by decide, by decide⟩
  have hstart : (Port.start factorial32 b 3 false).board.Ready factorial32 b.kicks b.sys.calls :=
    start_ready (.reachable freshDev 0 history) hrests 3 false
  have hplain (zc : Bool) (n : Nat → Nat) (ops : Nat) :
      ∀ op ∈ factorialOps false zc n ops, op.zc = false := by
    intro op hop
    obtain ⟨i, -, rfl⟩ := List.mem_map.mp hop
    rfl
  have hfirst : ∀ op ∈ measureLatency, op.zc = false := hplain _ _ _
  have hsecond : ∀ op ∈ measureThroughput, op.zc = false := by
    intro op hop
    obtain ⟨-, -, hop⟩ := List.mem_flatMap.mp hop
    exact (List.mem_append.mp hop).elim (hplain _ _ _ op) (hplain _ _ _ op)
  have hswift {p : Port} {kicks calls : Nat} (hready : p.board.Ready factorial32 kicks calls)
      {ops : List Op} (hops : ops ∈ programs) (hplain : ∀ op ∈ ops, op.zc = false) :
      let served := p.serve factorial32 timeoutMs (ops.zip (swiftRounds kicks calls ops))
      served.2.2 = none ∧ List.Forall₂ Right ops served.2.1 ∧
        served.1.board.Ready factorial32 (kicks + ops.length) (calls + ops.length) := by
    intro served
    obtain ⟨hright, -, hiff, hend⟩ := programs_right factorial32_computes hready timeoutMs hops
      (fun op hop hzc => absurd hzc (by simp [hplain op hop])) (swiftRounds_length kicks calls ops).symm
      (swiftRounds_elsewhere kicks calls ops) (by decide) (by decide)
    have hnone : served.2.2 = none := hiff.mpr (swiftRounds_punctual (by simp [timeoutMs]) _ _ _)
    obtain ⟨hall, hready'⟩ := hend hnone
    rw [hall, List.take_length] at hright
    exact ⟨hnone, hright, hready'⟩
  obtain ⟨hnone, hright, hready⟩ := hswift hstart (by simp [programs]) hfirst
  obtain ⟨hnone', hright', -⟩ := hswift hready (by simp [programs]) hsecond
  exact ⟨_, _, rfl, rfl, hnone, hright, hnone', hright'⟩

end

end PcieDriver.Edu
