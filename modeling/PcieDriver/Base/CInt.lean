import Mathlib.Data.Int.Notation

/-!
# The signed `int` of C

A value is in range by construction. An operation whose value would leave the range has no result,
because the overflow of a signed type is undefined.
-/

namespace Base

structure CInt where
  val : Int
  low : -2147483648 ≤ val
  high : val ≤ 2147483647
  deriving DecidableEq

namespace CInt

def ofInt (i : Int) : Option CInt :=
  if h : -2147483648 ≤ i ∧ i ≤ 2147483647 then some ⟨i, h.1, h.2⟩ else none

def add (a b : CInt) : Option CInt := ofInt (a.val + b.val)

def mul (a b : CInt) : Option CInt := ofInt (a.val * b.val)

variable {i : Int} {a : CInt}

theorem ofInt_val (h : ofInt i = some a) : a.val = i := by
  unfold ofInt at h
  split at h
  · exact congrArg val (Option.some.inj h).symm
  · contradiction

theorem ofInt_none : ofInt i = none ↔ ¬ (-2147483648 ≤ i ∧ i ≤ 2147483647) := by
  unfold ofInt
  split
  · next h => exact ⟨fun hnone => (Option.some_ne_none _ hnone).elim, fun hout => (hout h).elim⟩
  · next h => exact ⟨fun _ => h, fun _ => rfl⟩

end CInt

end Base
