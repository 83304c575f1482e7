import Mathlib.Data.List.Basic

/-!
# Work that is done in batches

Items come in one by one, wait in a queue with room for `n`, and are then all done at once. What was
done stays on record until the ledger is cleared.
-/

namespace Base

variable {α : Type} {n : Nat}

structure Ledger (α : Type) (n : Nat) where
  done : List α
  waiting : List α
  room : waiting.length ≤ n

inductive LedgerOp (α : Type)
  | add (x : α)
  | finish
  | clear
  | skip

namespace Ledger

def empty : Ledger α n := ⟨[], [], Nat.zero_le n⟩

/-- All that came in, the oldest first. -/
def all (l : Ledger α n) : List α := l.done ++ l.waiting

/-- A full queue takes nothing more in. -/
def add (l : Ledger α n) (x : α) : Ledger α n :=
  if h : l.waiting.length < n then
    ⟨l.done, l.waiting ++ [x], by simpa using Nat.succ_le_of_lt h⟩
  else l

def finish (l : Ledger α n) : Ledger α n := ⟨l.all, [], Nat.zero_le n⟩

def next (l : Ledger α n) : LedgerOp α → Ledger α n
  | .add x => l.add x
  | .finish => l.finish
  | .clear => empty
  | .skip => l

variable {l l' : Ledger α n} {x : α}

theorem full_of_not_lt (h : ¬ l.waiting.length < n) : l.waiting.length = n := by
  have := l.room
  omega

theorem add_room (h : l.waiting.length < n) : (l.add x).all = l.all ++ [x] := by
  rw [add, dif_pos h, all, all, List.append_assoc]

@[simp] theorem add_done (l : Ledger α n) (x : α) : (l.add x).done = l.done := by
  rw [add]
  split_ifs <;> rfl

theorem add_full (h : ¬ l.waiting.length < n) : l.add x = l := dif_neg h

@[simp] theorem all_finish : l.finish.all = l.all := List.append_nil _

/-- **A batch may be finished early**: what came in decides what finishing leads to. -/
theorem finish_congr (h : l.all = l'.all) : l.finish = l'.finish := by
  simp only [finish, h]

@[simp] theorem all_length (l : Ledger α n) : l.all.length = l.done.length + l.waiting.length :=
  List.length_append

@[simp] theorem drop_all (l : Ledger α n) : l.all.drop l.done.length = l.waiting := List.drop_left' rfl

end Ledger

end Base
