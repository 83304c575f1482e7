import PcieDriver.Base.Cells

/-!
# Blocks with an end

`Mem` and the rings of cells have no end. Here each access is given the size of its block, and an
access that leaves the block has no result.
-/

namespace Base

variable {α β : Type}

/-- A write to entry `i` of an array of `n`. -/
def setIn (n : Nat) (f : Nat → α) (i : Nat) (x : α) : Option (Nat → α) :=
  if i < n then some (Function.update f i x) else none

def readIn (n : Nat) (f : Nat → α) (i : Nat) : Option α := if i < n then some (f i) else none

/-- The first `k` items of an array. -/
def takeIn (xs : List α) (k : Nat) : Option (List α) := if k ≤ xs.length then some (xs.take k) else none

/-- A loop over the first `k` items of an array, which it reads one by one. -/
def foldIn (f : β → α → β) (init : β) (xs : List α) (k : Nat) : Option β :=
  (List.range k).foldlM (fun acc i => xs[i]?.map (f acc)) init

theorem setIn_eq {n i : Nat} (h : i < n) (f : Nat → α) (x : α) :
    setIn n f i x = some (Function.update f i x) := if_pos h

theorem readIn_eq {n i : Nat} (h : i < n) (f : Nat → α) : readIn n f i = some (f i) := if_pos h

theorem takeIn_eq {xs : List α} {k : Nat} (h : k ≤ xs.length) : takeIn xs k = some (xs.take k) :=
  if_pos h

theorem foldIn_eq (f : β → α → β) (init : β) {xs : List α} {k : Nat} (h : k ≤ xs.length) :
    foldIn f init xs k = some ((xs.take k).foldl f init) := by
  induction k with
  | zero => rfl
  | succ k ih =>
    have hprev := ih (by omega)
    have hitem : xs[k]? = some xs[k] := List.getElem?_eq_getElem h
    rw [foldIn] at hprev ⊢
    rw [List.range_succ, List.foldlM_append, hprev, List.take_add_one, List.foldl_append, hitem]
    simp [hitem]

namespace Mem

def getIn (size : Nat) (m : Mem) (a n : Nat) : Option (List Byte) :=
  if a + n ≤ size then some (m.get a n) else none

def putIn (size : Nat) (m : Mem) (a : Nat) (bs : List Byte) : Option Mem :=
  if a + bs.length ≤ size then some (m.put a bs) else none

def clearIn (size : Nat) (m : Mem) (a n : Nat) : Option Mem :=
  if a + n ≤ size then some (m.clear a n) else none

/-- `memset` of a whole array and then `memcpy` to its front. -/
def padIn (size : Nat) (bs : List Byte) : Option (List Byte) :=
  if bs.length ≤ size then some (pad size bs) else none

section
variable {size a n : Nat} {bs : List Byte} (m : Mem)

theorem getIn_eq (h : a + n ≤ size) : getIn size m a n = some (m.get a n) := if_pos h

theorem putIn_eq (h : a + bs.length ≤ size) : putIn size m a bs = some (m.put a bs) := if_pos h

theorem clearIn_eq (h : a + n ≤ size) : clearIn size m a n = some (m.clear a n) := if_pos h

theorem padIn_eq (h : bs.length ≤ size) : padIn size bs = some (pad size bs) := if_pos h

end

/-! ## Parts of a block -/

theorem get_add (m : Mem) (a k n : Nat) : m.get a (k + n) = m.get a k ++ m.get (a + k) n := by
  simp only [get, List.range_add, List.map_append, List.map_map, Function.comp_def, Nat.add_assoc]

theorem take_get (m : Mem) (a : Nat) {k n : Nat} (h : k ≤ n) : (m.get a n).take k = m.get a k := by
  obtain ⟨r, rfl⟩ := Nat.exists_eq_add_of_le h
  rw [get_add, List.take_left' (get_length m a k)]

/-- Where a block is its padding, the front holds the bytes and the rest is zero. -/
theorem get_pad {m : Mem} {a size : Nat} {bs : List Byte} (hfit : bs.length ≤ size)
    (h : m.get a size = pad size bs) :
    m.get a bs.length = bs ∧
      m.get (a + bs.length) (size - bs.length) = List.replicate (size - bs.length) 0 := by
  obtain ⟨r, rfl⟩ := Nat.exists_eq_add_of_le hfit
  rw [get_add, pad, Nat.add_sub_cancel_left] at h
  rw [Nat.add_sub_cancel_left]
  exact List.append_inj h (get_length m a bs.length)

end Mem

/-! ## Sums of bytes -/

/-- A 32-bit sum of bytes that has room for all of them is exact. -/
theorem toNat_sum_bytes (bs : List Byte) (sum : BitVec 32)
    (h : sum.toNat + 255 * bs.length < 2 ^ 32) :
    (bs.foldl (fun sum b => sum + b.setWidth 32) sum).toNat =
      sum.toNat + (bs.map BitVec.toNat).sum := by
  induction bs generalizing sum with
  | nil => rfl
  | cons b bs ih =>
    have hb : b.toNat < 256 := b.isLt
    rw [List.length_cons] at h
    have hadd : (sum + b.setWidth 32).toNat = sum.toNat + b.toNat := by
      rw [BitVec.toNat_add, BitVec.toNat_setWidth]
      omega
    rw [List.foldl_cons, ih _ (by omega), hadd, List.map_cons, List.sum_cons, Nat.add_assoc]

end Base
