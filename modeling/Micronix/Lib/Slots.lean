import Mathlib.Algebra.BigOperators.Intervals
import Mathlib.Algebra.Order.BigOperators.Group.Finset
import Mathlib.Tactic.SplitIfs

/-!
# References counted over a table of slots

A table has `n` rows of `m` slots, and a slot refers to one thing or to nothing.  `total` counts the
slots that refer to a thing; the rules say how it changes with one slot or one row.
-/

namespace Slots

open Finset

variable {α : Type*} [DecidableEq α] {n m : ℕ} {a : α}

/-- A sum in which one term changes. -/
lemma sum_change {n k : ℕ} {s t : ℕ → ℕ} (h : ∀ x, x ≠ k → t x = s x) (hk : k < n) :
    ∑ x ∈ range n, t x + s k = ∑ x ∈ range n, s x + t k := by
  have hs := Finset.add_sum_erase (range n) s (mem_range.mpr hk)
  have ht := Finset.add_sum_erase (range n) t (mem_range.mpr hk)
  have he : ∑ x ∈ (range n).erase k, t x = ∑ x ∈ (range n).erase k, s x :=
    Finset.sum_congr rfl fun x hx => h x (Finset.ne_of_mem_erase hx)
  omega

/-- Whether a slot refers to `a`. -/
def hit (x : Option α) (a : α) : ℕ := if x = some a then 1 else 0

/-- The slots of a row that refer to `a`. -/
def row (m : ℕ) (o : ℕ → Option α) (a : α) : ℕ := ∑ j ∈ range m, hit (o j) a

/-- The slots of the table that refer to `a`. -/
def total (n m : ℕ) (o : ℕ → ℕ → Option α) (a : α) : ℕ := ∑ i ∈ range n, row m (o i) a

@[simp] lemma hit_none : hit none a = 0 := if_neg (by simp)

@[simp] lemma hit_self : hit (some a) a = 1 := if_pos rfl

lemma hit_of_ne {b : α} (h : b ≠ a) : hit (some b) a = 0 := if_neg (by simpa using h)

/-! ## Zero -/

lemma hit_eq_zero {x : Option α} : hit x a = 0 ↔ x ≠ some a := by
  unfold hit
  split_ifs with h <;> simp [h]

lemma row_eq_zero {o : ℕ → Option α} : row m o a = 0 ↔ ∀ j < m, o j ≠ some a := by
  simp [row, hit_eq_zero]

lemma total_eq_zero {o : ℕ → ℕ → Option α} :
    total n m o a = 0 ↔ ∀ i < n, ∀ j < m, o i j ≠ some a := by
  simp [total, row_eq_zero]

/-! ## Changes -/

lemma row_update {o : ℕ → Option α} {j : ℕ} (hj : j < m) (x : Option α) (a : α) :
    row m (Function.update o j x) a + hit (o j) a = row m o a + hit x a := by
  have h := sum_change (s := fun k => hit (o k) a) (t := fun k => hit (Function.update o j x k) a)
    (fun k hk => by rw [Function.update_of_ne hk]) hj
  rw [Function.update_self] at h
  exact h

lemma total_update {o : ℕ → ℕ → Option α} {i : ℕ} (hi : i < n) (r : ℕ → Option α) (a : α) :
    total n m (Function.update o i r) a + row m (o i) a = total n m o a + row m r a := by
  have h := sum_change (s := fun k => row m (o k) a)
    (t := fun k => row m (Function.update o i r k) a)
    (fun k hk => by rw [Function.update_of_ne hk]) hi
  rw [Function.update_self] at h
  exact h

/-- One slot changes. -/
lemma total_set {o : ℕ → ℕ → Option α} {i j : ℕ} (hi : i < n) (hj : j < m) (x : Option α) (a : α) :
    total n m (Function.update o i (Function.update (o i) j x)) a + hit (o i j) a =
      total n m o a + hit x a := by
  have h := total_update (m := m) (o := o) hi (Function.update (o i) j x) a
  have h' := row_update (o := o i) hj x a
  omega

/-! ## Bounds -/

lemma one_le_total {o : ℕ → ℕ → Option α} {i j : ℕ} (hi : i < n) (hj : j < m)
    (h : o i j = some a) : 1 ≤ total n m o a := by
  by_contra hc
  exact total_eq_zero.mp (by omega : total n m o a = 0) i hi j hj h

/-- **One reference, one slot.** -/
lemma total_eq_one {o : ℕ → ℕ → Option α} {i j k l : ℕ} (ht : total n m o a = 1) (hi : i < n)
    (hj : j < m) (hk : k < n) (hl : l < m) (h : o i j = some a) (h' : o k l = some a) :
    i = k ∧ j = l := by
  have hset := total_set (o := o) hi hj none a
  rw [h, hit_self, hit_none, ht] at hset
  -- without the first slot nothing is left
  have hz := total_eq_zero.mp (by omega :
    total n m (Function.update o i (Function.update (o i) j none)) a = 0) k hk l hl
  by_cases hik : k = i
  · subst hik
    rw [Function.update_self] at hz
    by_cases hjl : l = j
    · exact ⟨rfl, hjl.symm⟩
    · rw [Function.update_of_ne hjl] at hz
      exact absurd h' hz
  · rw [Function.update_of_ne hik] at hz
    exact absurd h' hz

end Slots
