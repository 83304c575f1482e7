import Mathlib.Data.List.Basic
import Mathlib.Data.Nat.ModEq

/-!
# A queue in a ring of cells

The queue starts at position `head` of a count that never wraps. Only the cell number wraps,
so positions are plain numbers and cell `p % n` holds position `p`.
-/

namespace Base

variable {α : Type} {n : Nat}

/-- Positions less than a ring apart do not share a cell. -/
theorem mod_ne_of_lt {a b : Nat} (hlt : a < b) (hb : b < a + n) : a % n ≠ b % n := by
  intro h
  have hdvd : n ∣ b - a := (Nat.modEq_iff_dvd' (Nat.le_of_lt hlt)).mp h
  have := Nat.eq_zero_of_dvd_of_lt hdvd (by omega)
  omega

theorem eq_of_mod_eq {a b : Nat} (h : a % n = b % n) (ha : a < b + n) (hb : b < a + n) : a = b := by
  rcases Nat.lt_trichotomy a b with hlt | heq | hgt
  · exact absurd h (mod_ne_of_lt hlt hb)
  · exact heq
  · exact absurd h.symm (mod_ne_of_lt hgt ha)

/-- The cells from position `head` on hold `q`, the oldest entry first. -/
def Holds (cell : Nat → α) (n head : Nat) (q : List α) : Prop :=
  ∀ k (h : k < q.length), cell ((head + k) % n) = q[k]

namespace Holds

variable {cell cell' : Nat → α} {head : Nat} {q : List α}

theorem nil : Holds cell n head ([] : List α) := by
  intro k h
  simp at h

theorem mod_head (h : Holds cell n head q) : Holds cell n (head % n) q := by
  intro k hk
  rw [Nat.mod_add_mod]
  exact h k hk

theorem congr (hn : 0 < n) (h : Holds cell n head q) (hsame : ∀ i < n, cell' i = cell i) :
    Holds cell' n head q := by
  intro k hk
  rw [hsame _ (Nat.mod_lt _ hn)]
  exact h k hk

theorem push {x : α} (h : Holds cell n head q) (hroom : q.length < n)
    (hnew : cell' ((head + q.length) % n) = x)
    (hold : ∀ i < n, i ≠ (head + q.length) % n → cell' i = cell i) :
    Holds cell' n head (q ++ [x]) := by
  intro k hk
  rw [List.length_append, List.length_singleton] at hk
  by_cases hlast : k = q.length
  · subst hlast
    simpa using hnew
  · have hk' : k < q.length := by omega
    rw [List.getElem_append_left hk', hold _ (Nat.mod_lt _ (by omega))
      (mod_ne_of_lt (by omega) (by omega))]
    exact h k hk'

theorem head_eq {x : α} (h : Holds cell n head (x :: q)) : cell (head % n) = x := by
  exact h 0 (Nat.zero_lt_succ _)

theorem pop {x : α} (h : Holds cell n head (x :: q)) : Holds cell n (head + 1) q := by
  intro k hk
  have := h (k + 1) (by simpa using hk)
  rw [show head + 1 + k = head + (k + 1) by omega]
  simpa using this

end Holds

/-! ## The queue itself -/

inductive FifoOp (α : Type)
  | clear
  | push (x : α)
  | pop
  | skip

def FifoOp.next (q : List α) : FifoOp α → List α
  | clear => []
  | push x => q ++ [x]
  | pop => q.tail
  | skip => q

/-- The cells that the queue uses. The next cell to write is not one of them while there is room. -/
def InQueue (n head len i : Nat) : Prop := ∃ k < len, i = (head + k) % n

theorem tail_not_inQueue {head len : Nat} (hroom : len < n) :
    ¬ InQueue n head len ((head + len) % n) := by
  rintro ⟨k, hk, h⟩
  exact mod_ne_of_lt (by omega) (by omega) h.symm

end Base
