import Mathlib.Data.Fin.Basic
import Mathlib.Logic.Function.Basic
import Mathlib.Tactic.Common

/-!
# Windows of a store

A store has a value at each address.  A window is a number of values that stand at consecutive addresses;
it is written and read as a whole, and windows that have no address in common do not touch each other.
-/

namespace Window

variable {β : Type*} {n : ℕ} {d : ℕ → β} {a b : ℕ} {w : Fin n → β}

/-- Write a window at the address `a`. -/
def put (d : ℕ → β) (a : ℕ) (w : Fin n → β) : ℕ → β := fun k =>
  if h : a ≤ k ∧ k < a + n then w ⟨k - a, by omega⟩ else d k

/-- Read the window at the address `a`. -/
def get (n : ℕ) (d : ℕ → β) (a : ℕ) : Fin n → β := fun j => d (a + j)

/-- **Read back.** -/
@[simp] lemma get_put : get n (put d a w) a = w := by
  funext j
  have hj : a ≤ a + (j : ℕ) ∧ a + (j : ℕ) < a + n := ⟨by omega, by omega⟩
  rw [get, put, dif_pos hj]
  congr 1
  exact Fin.ext (by simp)

/-- **Frame.**  Only the window's own addresses change. -/
lemma put_apply_of_not_mem {k : ℕ} (h : k < a ∨ a + n ≤ k) : put d a w k = d k := by
  rw [put, dif_neg (by omega)]

/-- Windows apart. -/
lemma get_put_of_apart {m : ℕ} (h : b + m ≤ a ∨ a + n ≤ b) : get m (put d a w) b = get m d b := by
  funext j
  exact put_apply_of_not_mem (by omega)

end Window
