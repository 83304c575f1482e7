import Mathlib.Data.BitVec
import Mathlib.Data.List.Basic
import Mathlib.Data.List.GetD

/-!
# Byte memory

A block of memory is a function from offsets to bytes. `get` and `put` move lists of bytes,
and `bytesOf` and `wordOf` are the little-endian words in them.
-/

namespace Base

abbrev Byte := BitVec 8
abbrev Mem := Nat → Byte

namespace Mem

def get (m : Mem) (a n : Nat) : List Byte := (List.range n).map fun k => m (a + k)

/-- `memcpy`: the bytes of `bs` at `a`, and everything else as it was. -/
def put (m : Mem) (a : Nat) (bs : List Byte) : Mem :=
  fun i => if a ≤ i ∧ i < a + bs.length then bs.getD (i - a) 0 else m i

@[simp] theorem get_length (m : Mem) (a n : Nat) : (m.get a n).length = n := by simp [get]

theorem get_congr {m m' : Mem} {a n : Nat} (h : ∀ i, a ≤ i → i < a + n → m' i = m i) :
    m'.get a n = m.get a n := by
  simp only [get, List.map_inj_left, List.mem_range]
  intro k hk
  exact h _ (by omega) (by omega)

theorem put_outside (m : Mem) (a : Nat) (bs : List Byte) {i : Nat} (h : i < a ∨ a + bs.length ≤ i) :
    m.put a bs i = m i := if_neg (by omega)

theorem put_front (m : Mem) (bs : List Byte) {i : Nat} (h : i < bs.length) :
    m.put 0 bs i = bs.getD i 0 :=
  if_pos (by omega)

theorem put_nil (m : Mem) (a : Nat) : m.put a [] = m := by
  funext i
  exact put_outside m a [] (by simp; omega)

theorem get_put_disjoint (m : Mem) (a : Nat) (bs : List Byte) {b n : Nat}
    (h : a + bs.length ≤ b ∨ b + n ≤ a) : (m.put a bs).get b n = m.get b n :=
  get_congr fun _ _ _ => put_outside _ _ _ (by omega)

theorem get_put_within (m : Mem) (a : Nat) (bs : List Byte) {k n : Nat} (h : k + n ≤ bs.length) :
    (m.put a bs).get (a + k) n = (bs.drop k).take n := by
  apply List.ext_getElem
  · simp; omega
  · intro i hi _
    have hin : i < n := by simpa using hi
    have hk : k + i < bs.length := by omega
    have hrange : a ≤ a + k + i ∧ a + k + i < a + bs.length := by omega
    simp [get, put, hrange, show a + k + i - a = k + i by omega, hk]

theorem get_put_same (m : Mem) (a : Nat) (bs : List Byte) : (m.put a bs).get a bs.length = bs := by
  simpa using get_put_within m a bs (k := 0) (n := bs.length) (by omega)

theorem put_append (m : Mem) (a : Nat) (xs ys : List Byte) :
    (m.put a xs).put (a + xs.length) ys = m.put a (xs ++ ys) := by
  funext i
  simp only [put, List.length_append]
  by_cases hx : a ≤ i ∧ i < a + xs.length
  · rw [if_neg (by omega), if_pos hx, if_pos (by omega), List.getD_append _ _ _ _ (by omega)]
  · by_cases hy : a + xs.length ≤ i ∧ i < a + xs.length + ys.length
    · rw [if_pos hy, if_pos (by omega), List.getD_append_right _ _ _ _ (by omega)]
      congr 1
      omega
    · rw [if_neg hy, if_neg hx, if_neg (by omega)]

theorem put_comm (m : Mem) {a b : Nat} {xs ys : List Byte}
    (h : a + xs.length ≤ b ∨ b + ys.length ≤ a) :
    (m.put a xs).put b ys = (m.put b ys).put a xs := by
  funext i
  simp only [put]
  split_ifs <;> first | rfl | omega

theorem put_get_same (m : Mem) (a n : Nat) : m.put a (m.get a n) = m := by
  funext i
  rw [put, get_length]
  split_ifs with hi
  · have hin : i - a < n := by omega
    simp [get, hin, show a + (i - a) = i by omega]
  · rfl

end Mem

/-! ## Little-endian words -/

/-- The `w` low bytes of `x`, the lowest first. -/
def bytesOf : (w : Nat) → Nat → List Byte
  | 0, _ => []
  | w + 1, x => BitVec.ofNat 8 x :: bytesOf w (x / 256)

def wordOf : List Byte → Nat
  | [] => 0
  | b :: bs => b.toNat + 256 * wordOf bs

@[simp] theorem bytesOf_length (w x : Nat) : (bytesOf w x).length = w := by
  induction w generalizing x with
  | zero => rfl
  | succ w ih => simp [bytesOf, ih]

theorem wordOf_bytesOf (w x : Nat) : wordOf (bytesOf w x) = x % 256 ^ w := by
  induction w generalizing x with
  | zero => simp [bytesOf, wordOf, Nat.mod_one]
  | succ w ih =>
    rw [bytesOf, wordOf, ih, Nat.pow_succ', Nat.mod_mul]
    rfl

theorem ofNat_wordOf_bytesOf {n : Nat} (w : Nat) (x : BitVec n) (h : 2 ^ n = 256 ^ w) :
    BitVec.ofNat n (wordOf (bytesOf w x.toNat)) = x := by
  rw [wordOf_bytesOf, ← h, Nat.mod_eq_of_lt x.isLt, BitVec.ofNat_toNat, BitVec.setWidth_eq]

end Base
