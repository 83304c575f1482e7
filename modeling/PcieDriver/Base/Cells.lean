import PcieDriver.Base.Bytes
import PcieDriver.Base.Fifo
import Mathlib.Data.List.GetD
import Mathlib.Data.List.Induction
import Mathlib.Logic.Function.Basic

/-!
# A log in a ring of cells

Items are written one after the other, each into the next cell, and the last cell is followed by
the first. The cells then hold the last items of the log. `flat` lays cells of bytes out in memory.
-/

namespace Base

variable {α : Type}

/-- The newest item first. -/
def cellsRev (n : Nat) (z : α) : List α → Nat → α
  | [] => fun _ => z
  | x :: older => Function.update (cellsRev n z older) (older.length % n) x

/-- What the cells hold after `xs`. A cell that was never written holds `z`. -/
def cells (n : Nat) (z : α) (xs : List α) : Nat → α := cellsRev n z xs.reverse

section
variable {n : Nat} {z : α}

@[simp] theorem cells_nil : cells n z ([] : List α) = fun _ => z := rfl

theorem cells_concat (xs : List α) (x : α) :
    cells n z (xs ++ [x]) = Function.update (cells n z xs) (xs.length % n) x := by
  rw [cells, List.reverse_append, List.reverse_singleton, List.singleton_append, cellsRev,
    List.length_reverse]
  rfl

/-- An item is in its cell until the log is a ring longer. -/
theorem cells_getElem (xs : List α) {k : Nat} (hk : k < xs.length) (hkept : xs.length ≤ k + n) :
    cells n z xs (k % n) = xs[k] := by
  induction xs using List.reverseRecOn with
  | nil => simp at hk
  | append_singleton xs x ih =>
    rw [List.length_append, List.length_singleton] at hk hkept
    rw [cells_concat]
    by_cases hlast : k = xs.length
    · subst hlast
      rw [Function.update_self, List.getElem_concat_length rfl]
    · have hk' : k < xs.length := by omega
      have hother : k % n ≠ xs.length % n := mod_ne_of_lt hk' (by omega)
      rw [Function.update_of_ne hother, ih hk' (by omega), List.getElem_append_left hk']

theorem cells_unused (hn : 0 < n) (xs : List α) {i : Nat} (hi : n ≤ i) : cells n z xs i = z := by
  induction xs using List.reverseRecOn with
  | nil => rfl
  | append_singleton xs x ih =>
    have hlt := Nat.mod_lt xs.length hn
    rw [cells_concat, Function.update_of_ne (by omega), ih]

/-- The end of the log is a queue in the ring. -/
theorem holds_cells (xs : List α) {t : Nat} (hkept : xs.length ≤ t + n) :
    Holds (cells n z xs) n t (xs.drop t) := by
  intro k hk
  rw [List.length_drop] at hk
  rw [List.getElem_drop, cells_getElem xs (by omega) (by omega)]

end

/-! ## Cells of bytes in memory -/

namespace Mem

def zero : Mem := fun _ => 0

/-- `memset` to 0. -/
def clear (m : Mem) (a n : Nat) : Mem := m.put a (List.replicate n 0)

def pad (n : Nat) (bs : List Byte) : List Byte := bs ++ List.replicate (n - bs.length) 0

theorem pad_length {n : Nat} {bs : List Byte} (h : bs.length ≤ n) : (pad n bs).length = n := by
  simp [pad]
  omega

theorem take_pad {n : Nat} (bs : List Byte) : (pad n bs).take bs.length = bs :=
  List.take_left' rfl

theorem getD_zeros (n i : Nat) : (List.replicate n (0 : Byte)).getD i 0 = 0 := by
  rw [List.getD_eq_getElem?_getD, List.getElem?_getD_replicate_default_eq]

theorem getD_pad (n i : Nat) (bs : List Byte) : (pad n bs).getD i 0 = bs.getD i 0 := by
  rcases lt_or_ge i bs.length with hlt | hge
  · rw [pad, List.getD_append _ _ _ _ hlt]
  · rw [pad, List.getD_append_right _ _ _ _ hge, List.getD_eq_default _ _ hge]
    exact getD_zeros _ _

theorem clear_apply (m : Mem) (a n i : Nat) :
    m.clear a n i = if a ≤ i ∧ i < a + n then 0 else m i := by
  simp only [clear, put, List.length_replicate, getD_zeros]

theorem put_clear (m : Mem) (a : Nat) {n : Nat} {bs : List Byte} (h : bs.length ≤ n) :
    (m.clear a n).put a bs = m.put a (pad n bs) := by
  funext i
  simp only [put, pad_length h, getD_pad, clear_apply]
  split_ifs with hbs hn hn
  · rfl
  · omega
  · rw [List.getD_eq_default _ _ (by omega)]
  · rfl

theorem put_put (m : Mem) (a : Nat) {xs ys : List Byte} (h : xs.length = ys.length) :
    (m.put a xs).put a ys = m.put a ys := by
  funext i
  simp only [put, h]
  split_ifs <;> rfl

theorem clear_zero (a n : Nat) : zero.clear a n = zero := by
  funext i
  rw [clear_apply]
  split_ifs <;> rfl

/-- Cells of `w` bytes, one after the other. -/
def flat (w : Nat) (f : Nat → List Byte) : Mem := fun a => (f (a / w)).getD (a % w) 0

section
variable {w : Nat} (f : Nat → List Byte)

theorem flat_put (hw : 0 < w) (s : Nat) {bs : List Byte} (hlen : bs.length = w) :
    (flat w f).put (s * w) bs = flat w (Function.update f s bs) := by
  funext a
  have hsplit := Nat.div_add_mod' a w
  have hlt := Nat.mod_lt a hw
  simp only [put, flat, hlen]
  by_cases hs : a / w = s
  · subst hs
    rw [if_pos (by omega), Function.update_self]
    congr 1
    omega
  · rw [if_neg, Function.update_of_ne hs]
    rintro ⟨hle, hlt'⟩
    exact hs (Nat.div_eq_of_lt_le hle (by rwa [Nat.succ_mul]))

theorem get_flat (hw : 0 < w) (s : Nat) {k : Nat} (hk : k ≤ w) (hlen : k ≤ (f s).length) :
    (flat w f).get (s * w) k = (f s).take k := by
  apply List.ext_getElem
  · simpa using hlen
  · intro i hi _
    rw [get_length] at hi
    have hcell : flat w f (s * w + i) = (f s).getD i 0 := by
      rw [flat, Nat.mul_comm, Nat.mul_add_div hw, Nat.div_eq_of_lt (by omega), Nat.add_zero,
        Nat.mul_add_mod, Nat.mod_eq_of_lt (by omega)]
    have hin : i < (f s).length := by omega
    simp [get, hcell, List.getD_eq_getElem?_getD, List.getElem?_eq_getElem hin]

theorem flat_zero (w n : Nat) : flat w (fun _ => List.replicate n 0) = zero := by
  funext a
  exact getD_zeros _ _

theorem clear_flat (hw : 0 < w) {n : Nat} (h : ∀ i, n ≤ i → f i = List.replicate w 0) :
    (flat w f).clear 0 (n * w) = zero := by
  funext a
  rw [clear_apply]
  split_ifs with hin
  · rfl
  · have hcell : n ≤ a / w := (Nat.le_div_iff_mul_le hw).mpr (by omega)
    rw [flat, h _ hcell]
    exact getD_zeros _ _

end

end Mem

end Base
