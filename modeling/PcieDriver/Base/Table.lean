import Mathlib.Data.Finset.Card
import Mathlib.Data.Fintype.Basic
import Mathlib.Data.List.FinRange

/-!
# A table of slots

A slot is in use when it holds something other than zero. Writing one slot changes the number of
slots in use by at most one.
-/

namespace Base

variable {α : Type} [Zero α] [DecidableEq α] {n : Nat}

def inUse (f : Fin n → α) : Finset (Fin n) := Finset.univ.filter fun i => f i ≠ 0

@[simp] theorem mem_inUse (f : Fin n → α) (i : Fin n) : i ∈ inUse f ↔ f i ≠ 0 := by simp [inUse]

@[simp] theorem inUse_zero : inUse (fun _ : Fin n => (0 : α)) = ∅ := by simp [inUse]

theorem inUse_eq_empty (f : Fin n → α) : inUse f = ∅ ↔ ∀ i, f i = 0 := by
  simp [Finset.eq_empty_iff_forall_notMem]

theorem inUse_clear (f : Fin n → α) (i : Fin n) :
    inUse (Function.update f i 0) = (inUse f).erase i := by
  ext j
  by_cases hj : j = i
  · subst hj; simp
  · simp [hj]

theorem inUse_set (f : Fin n → α) (i : Fin n) {x : α} (hx : x ≠ 0) :
    inUse (Function.update f i x) = insert i (inUse f) := by
  ext j
  by_cases hj : j = i
  · subst hj; simp [hx]
  · simp [hj]

theorem card_inUse_clear (f : Fin n → α) {i : Fin n} (h : f i ≠ 0) :
    (inUse (Function.update f i 0)).card + 1 = (inUse f).card := by
  rw [inUse_clear]
  exact Finset.card_erase_add_one (by simpa using h)

theorem card_inUse_set (f : Fin n → α) {i : Fin n} {x : α} (hx : x ≠ 0) (h : f i = 0) :
    (inUse (Function.update f i x)).card = (inUse f).card + 1 := by
  rw [inUse_set f i hx]
  exact Finset.card_insert_of_notMem (by simpa using h)

theorem card_inUse_update_le (f : Fin n → α) (i : Fin n) (x : α) :
    (inUse (Function.update f i x)).card ≤ (inUse f).card + 1 := by
  by_cases hx : x = 0
  · subst hx
    rw [inUse_clear]
    exact (Finset.card_erase_le).trans (Nat.le_succ _)
  · rw [inUse_set f i hx]
    exact Finset.card_insert_le _ _

/-! ## The first slot with a property -/

theorem find_finRange_first {p : Fin n → Bool} {i : Fin n}
    (h : (List.finRange n).find? p = some i) : p i = true ∧ ∀ j < i, p j = false := by
  obtain ⟨hp, as, bs, hl, has⟩ := List.find?_eq_some_iff_append.mp h
  refine ⟨hp, fun j hj => ?_⟩
  have hsorted : (as ++ i :: bs).Pairwise (· < ·) := hl ▸ List.pairwise_lt_finRange n
  have hmem : j ∈ as ++ i :: bs := hl ▸ List.mem_finRange j
  rw [List.pairwise_append, List.pairwise_cons] at hsorted
  -- Everything from `i` on is at least `i`, so `j` comes before it.
  rcases List.mem_append.mp hmem with hj' | hj'
  · simpa using has j hj'
  · rcases List.mem_cons.mp hj' with rfl | hj'
    · exact absurd hj (lt_irrefl _)
    · exact absurd hj (lt_asymm (hsorted.2.1.1 j hj'))

theorem find_finRange_eq_some {p : Fin n → Bool} {i : Fin n} :
    (List.finRange n).find? p = some i ↔ p i = true ∧ ∀ j < i, p j = false := by
  refine ⟨find_finRange_first, fun ⟨hp, hbefore⟩ => ?_⟩
  cases hf : (List.finRange n).find? p with
  | none =>
    have := List.find?_eq_none.mp hf i (List.mem_finRange i)
    exact absurd hp this
  | some k =>
    obtain ⟨hk, hbefore'⟩ := find_finRange_first hf
    rcases lt_trichotomy k i with hlt | heq | hgt
    · simp [hbefore k hlt] at hk
    · rw [heq]
    · simp [hbefore' i hgt] at hp

theorem find_finRange_eq_none {p : Fin n → Bool} :
    (List.finRange n).find? p = none ↔ ∀ i, p i = false := by
  simp

end Base
