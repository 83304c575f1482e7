import PcieDriver.Base.CInt
import PcieDriver.Edu.Userspace

/-!
# Waiting for a completion

`EduDevice::wait_completion` polls, sleeps for 500 microseconds and polls again until the sleeps add
up to the timeout. Its arithmetic is that of `int`, and the limit in microseconds need not fit.
-/

open Base

namespace PcieDriver.Edu

/-! ## The loop -/

/-- What `poll_completion` comes to: a completion, `nullopt` or an exception. -/
abbrev Poll := Except String (Option EduCompletionReq)

/-- With `overflow` the behaviour is undefined. -/
inductive WaitResult
  | completion (c : EduCompletionReq)
  | nullopt
  | thrown (what : String)
  | overflow
  deriving DecidableEq

/-- `polled` counts the polls, and `sleptUs` adds up what `usleep` was called with. -/
structure Wait where
  result : WaitResult
  polled : Nat
  sleptUs : Nat
  deriving DecidableEq

def stepUs : CInt := ⟨500, by decide, by decide⟩
def usPerMs : CInt := ⟨1000, by decide, by decide⟩
def noneYet : CInt := ⟨0, by decide, by decide⟩

namespace EduDevice

/-- `polls` is what the polls come to, the first of which has number 0. -/
def waitLoop (polls : Nat → Poll) (limitUs waitedUs : CInt) (polled sleptUs : Nat) : Wait :=
  if waitedUs.val < limitUs.val then
    match polls polled with
    | .error what => ⟨.thrown what, polled + 1, sleptUs⟩
    | .ok (some c) => ⟨.completion c, polled + 1, sleptUs⟩
    | .ok none =>
      match _hadd : waitedUs.add stepUs with
      | none => ⟨.overflow, polled + 1, sleptUs + 500⟩
      | some waitedUs => waitLoop polls limitUs waitedUs (polled + 1) (sleptUs + 500)
  else ⟨.nullopt, polled, sleptUs⟩
termination_by (limitUs.val - waitedUs.val).toNat
decreasing_by
  have hval := CInt.ofInt_val _hadd
  have hstep : stepUs.val = 500 := rfl
  omega

def waitCompletion (polls : Nat → Poll) (timeoutMs : CInt) : Wait :=
  match timeoutMs.mul usPerMs with
  | none => ⟨.overflow, 0, 0⟩
  | some limitUs => waitLoop polls limitUs noneYet 0 0

end EduDevice

/-- `edu_wait_completion`: what it leaves in `out`, or `errno` where it returns -1. After an overflow
nothing is known. -/
def eduWaitCompletion (polls : Nat → Poll) (timeoutMs : CInt) :
    Option (Except Errno EduCompletionReq) :=
  match (EduDevice.waitCompletion polls timeoutMs).result with
  | .completion c => some (.ok c)
  | .nullopt => some (.error .etimedout)
  | .thrown _ => some (.error .eio)
  | .overflow => none

/-! ## How a wait ends -/

/-- The polls before number `n` found nothing. -/
def EmptyBefore (polls : Nat → Poll) (n : Nat) : Prop := ∀ k < n, polls k = .ok none

/-- A wait of `ms` milliseconds has time for two polls in each. -/
inductive WaitEnds (polls : Nat → Poll) (ms : Nat) : Wait → Prop
  | completion (n : Nat) (c : EduCompletionReq) (hn : n < 2 * ms) (hbefore : EmptyBefore polls n)
      (hpoll : polls n = .ok (some c)) : WaitEnds polls ms ⟨.completion c, n + 1, 500 * n⟩
  | thrown (n : Nat) (what : String) (hn : n < 2 * ms) (hbefore : EmptyBefore polls n)
      (hpoll : polls n = .error what) : WaitEnds polls ms ⟨.thrown what, n + 1, 500 * n⟩
  | nullopt (hbefore : EmptyBefore polls (2 * ms)) :
      WaitEnds polls ms ⟨.nullopt, 2 * ms, 500 * (2 * ms)⟩

section
variable {polls : Nat → Poll} {n : Nat} (h : EmptyBefore polls n)
include h

theorem EmptyBefore.succ (hpoll : polls n = .ok none) : EmptyBefore polls (n + 1) := by
  intro k hk
  rcases Nat.lt_succ_iff_lt_or_eq.mp hk with hlt | rfl
  · exact h k hlt
  · exact hpoll

theorem EmptyBefore.last {k : Nat} {p : Poll} (hk : k < n + 1) (hp : p ≠ .ok none)
    (hpoll : polls k = p) : polls n = p := by
  have hge : n ≤ k := Nat.le_of_not_lt fun hlt => hp (hpoll.symm.trans (h k hlt))
  have hkn : k = n := Nat.le_antisymm (Nat.le_of_lt_succ hk) hge
  rwa [← hkn]

end

/-- The counter goes up to the limit in steps that meet it, so it never leaves the range. -/
theorem waitLoop_ends {polls : Nat → Poll} {limitUs waitedUs : CInt} {ms n : Nat}
    (hlimit : limitUs.val = 500 * (2 * ms)) (hwaited : waitedUs.val = 500 * n) (hn : n ≤ 2 * ms)
    (hbefore : EmptyBefore polls n) :
    WaitEnds polls ms (EduDevice.waitLoop polls limitUs waitedUs n (500 * n)) := by
  obtain ⟨left, hleft⟩ := Nat.exists_eq_add_of_le hn
  induction left generalizing n waitedUs with
  | zero =>
    have hall : n = 2 * ms := hleft.symm
    subst hall
    rw [EduDevice.waitLoop, if_neg (by omega)]
    exact .nullopt hbefore
  | succ left ih =>
    rw [EduDevice.waitLoop, if_pos (by omega)]
    cases hpoll : polls n with
    | error what => exact .thrown n what (by omega) hbefore hpoll
    | ok found =>
      cases found with
      | some c => exact .completion n c (by omega) hbefore hpoll
      | none =>
        have hhigh := limitUs.high
        have hstep : stepUs.val = 500 := rfl
        simp only
        split
        · next hadd =>
          have hout := CInt.ofInt_none.mp hadd
          omega
        · next next hadd =>
          have hval := CInt.ofInt_val hadd
          exact ih (by omega) (by omega) (hbefore.succ hpoll) (by omega)

theorem limit_val {timeoutMs limitUs : CInt} (h : timeoutMs.mul usPerMs = some limitUs) :
    limitUs.val = timeoutMs.val * 1000 := CInt.ofInt_val h

theorem limit_none {timeoutMs : CInt} : timeoutMs.mul usPerMs = none ↔
    ¬ (-2147483648 ≤ timeoutMs.val * 1000 ∧ timeoutMs.val * 1000 ≤ 2147483647) := CInt.ofInt_none

theorem wait_ends {timeoutMs : CInt} {ms : Nat} (hms : timeoutMs.val = ms) (hfits : ms ≤ 2147483)
    (polls : Nat → Poll) : WaitEnds polls ms (EduDevice.waitCompletion polls timeoutMs) := by
  unfold EduDevice.waitCompletion
  split
  · next hmul =>
    have hout := limit_none.mp hmul
    omega
  · next limitUs hmul =>
    have hval := limit_val hmul
    exact waitLoop_ends (by omega) rfl (Nat.zero_le _) fun k hk => absurd hk (Nat.not_lt_zero k)

/-! ## What a caller may rely on -/

structure Honoured (polls : Nat → Poll) (timeoutMs : CInt) (w : Wait) : Prop where
  fits : w.result ≠ .overflow
  ends : w.polled ≤ 2 * timeoutMs.val.toNat
  completion : ∀ c, w.result = .completion c ↔
    ∃ n < w.polled, EmptyBefore polls n ∧ polls n = .ok (some c)
  thrown : ∀ what, w.result = .thrown what ↔
    ∃ n < w.polled, EmptyBefore polls n ∧ polls n = .error what
  nullopt : w.result = .nullopt →
    EmptyBefore polls w.polled ∧ timeoutMs.val * 1000 ≤ w.sleptUs

theorem WaitEnds.honoured {polls : Nat → Poll} {timeoutMs : CInt} {ms : Nat} {w : Wait}
    (hms : timeoutMs.val = ms) (h : WaitEnds polls ms w) : Honoured polls timeoutMs w := by
  cases h with
  | completion n c hn hbefore hpoll =>
    refine ⟨nofun, ?_, ?_, ?_, nofun⟩
    · show n + 1 ≤ 2 * timeoutMs.val.toNat
      omega
    · intro c'
      refine ⟨fun heq => ⟨n, Nat.lt_succ_self n, hbefore, ?_⟩, ?_⟩
      · rw [hpoll, WaitResult.completion.inj heq]
      · rintro ⟨k, hk, -, hpoll'⟩
        have hsame := hpoll.symm.trans (hbefore.last hk (by simp) hpoll')
        simpa using hsame
    · intro what
      refine ⟨nofun, ?_⟩
      rintro ⟨k, hk, -, hpoll'⟩
      have hsame := hpoll.symm.trans (hbefore.last hk (by simp) hpoll')
      cases hsame
  | thrown n what hn hbefore hpoll =>
    refine ⟨nofun, ?_, ?_, ?_, nofun⟩
    · show n + 1 ≤ 2 * timeoutMs.val.toNat
      omega
    · intro c
      refine ⟨nofun, ?_⟩
      rintro ⟨k, hk, -, hpoll'⟩
      have hsame := hpoll.symm.trans (hbefore.last hk (by simp) hpoll')
      cases hsame
    · intro what'
      refine ⟨fun heq => ⟨n, Nat.lt_succ_self n, hbefore, ?_⟩, ?_⟩
      · rw [hpoll, WaitResult.thrown.inj heq]
      · rintro ⟨k, hk, -, hpoll'⟩
        have hsame := hpoll.symm.trans (hbefore.last hk (by simp) hpoll')
        simpa using hsame
  | nullopt hbefore =>
    refine ⟨nofun, ?_, ?_, ?_, fun _ => ⟨hbefore, ?_⟩⟩
    · show 2 * ms ≤ 2 * timeoutMs.val.toNat
      omega
    · intro c
      refine ⟨nofun, ?_⟩
      rintro ⟨k, hk, -, hpoll⟩
      cases (hbefore k hk).symm.trans hpoll
    · intro what
      refine ⟨nofun, ?_⟩
      rintro ⟨k, hk, -, hpoll⟩
      cases (hbefore k hk).symm.trans hpoll
    · show timeoutMs.val * 1000 ≤ ((500 * (2 * ms) : Nat) : Int)
      omega

/-- A timeout of more than about 35 minutes has no limit in microseconds. -/
theorem wait_overflow {timeoutMs : CInt} (h : 2147483 < timeoutMs.val) (polls : Nat → Poll) :
    EduDevice.waitCompletion polls timeoutMs = ⟨.overflow, 0, 0⟩ := by
  have hmul : timeoutMs.mul usPerMs = none := limit_none.mpr (by omega)
  rw [EduDevice.waitCompletion, hmul]

/-- **A wait honours its timeout if and only if the timeout fits in microseconds**, whatever the polls
come to. -/
theorem wait_honoured_iff (polls : Nat → Poll) (timeoutMs : CInt) (h : 0 ≤ timeoutMs.val) :
    Honoured polls timeoutMs (EduDevice.waitCompletion polls timeoutMs) ↔
      timeoutMs.val ≤ 2147483 := by
  constructor
  · intro hon
    by_contra hlong
    exact hon.fits (congrArg Wait.result (wait_overflow (not_le.mp hlong) polls))
  · intro hfits
    obtain ⟨ms, hms⟩ := Int.eq_ofNat_of_zero_le h
    exact (wait_ends hms (by omega) polls).honoured hms

theorem wait_two_seconds :
    let polls : Nat → Poll := fun _ => .ok none
    let timeoutMs : CInt := ⟨2000, by decide, by decide⟩
    0 ≤ timeoutMs.val ∧
      (Honoured polls timeoutMs (EduDevice.waitCompletion polls timeoutMs) ↔
        timeoutMs.val ≤ 2147483) :=
  ⟨by decide, wait_honoured_iff _ ⟨2000, by decide, by decide⟩ (by decide)⟩

/-- The shortest timeout that does not fit, with a completion there from the start. -/
theorem wait_too_long :
    let polls : Nat → Poll := fun _ => .ok (some ⟨1, 0, 120⟩)
    let timeoutMs : CInt := ⟨2147484, by decide, by decide⟩
    0 ≤ timeoutMs.val ∧ ¬ Honoured polls timeoutMs (EduDevice.waitCompletion polls timeoutMs) := by
  intro polls timeoutMs
  refine ⟨by decide, ?_⟩
  intro hon
  exact hon.fits (congrArg Wait.result (wait_overflow (by decide) polls))

/-- **`ETIMEDOUT` means that the time is over.** -/
theorem etimedout_waited {polls : Nat → Poll} {timeoutMs : CInt} (h0 : 0 ≤ timeoutMs.val)
    (hfits : timeoutMs.val ≤ 2147483)
    (h : eduWaitCompletion polls timeoutMs = some (.error .etimedout)) :
    timeoutMs.val * 1000 ≤ (EduDevice.waitCompletion polls timeoutMs).sleptUs := by
  obtain ⟨ms, hms⟩ := Int.eq_ofNat_of_zero_le h0
  have hon := (wait_ends hms (by omega) polls).honoured hms
  unfold eduWaitCompletion at h
  split at h
  · cases h
  · next hnull => exact (hon.nullopt hnull).2
  · cases h
  · cases h

end PcieDriver.Edu
