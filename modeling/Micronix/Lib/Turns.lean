import Mathlib.Algebra.Group.Nat.Defs
import Mathlib.Data.List.Perm.Subperm
import Mathlib.Data.List.Range
import Mathlib.Tactic.Common
import Micronix.Lib.Circle

/-!
# Turns

Somebody hands out turns around a table of `n` places.  The hand stands before a place; whoever gets
the turn, the hand then stands behind him.  `ahead n c j` is how many places the hand at `c` passes
over to come to `j`.  While all turns go to places that the hand reaches before `p`, nobody gets two of
them, so `p` is passed over at most as often as there are places between the hand and `p`.
-/

namespace Turns

/-- How many places are passed over from the hand at `c` to the place `j`. -/
def ahead (n c j : ℕ) : ℕ := (j + n - c) % n

/-- The turns that are handed out before `p` gets one. -/
def Before (n p : ℕ) : ℕ → List ℕ → Prop
  | _, [] => True
  | c, q :: l => q < n ∧ ahead n c q < ahead n c p ∧ Before n p (q + 1) l

variable {n c j p q : ℕ}

lemma ahead_lt (hj : j < n) : ahead n c j < n := Nat.mod_lt _ (Nat.zero_lt_of_lt hj)

lemma ahead_of_le (hj : j < n) (h : c ≤ j) : ahead n c j = j - c := by
  rw [ahead, show j + n - c = j - c + n by omega, Nat.add_mod_right, Nat.mod_eq_of_lt (by omega)]

lemma ahead_of_lt (hc : c ≤ n) (h : j < c) : ahead n c j = j + n - c := by
  rw [ahead, Nat.mod_eq_of_lt (by omega)]

/-- The place that the hand comes to is the one that is so far ahead. -/
lemma add_ahead_mod (hc : c ≤ n) (hj : j < n) : (c + ahead n c j) % n = j := by
  rcases Nat.lt_or_ge j c with h | h
  · rw [ahead_of_lt hc h, show c + (j + n - c) = j + n by omega, Nat.add_mod_right,
      Nat.mod_eq_of_lt hj]
  · rw [ahead_of_le hj h, show c + (j - c) = j by omega, Nat.mod_eq_of_lt hj]

/-- When the turn has gone to a place before `p`, the hand is that much nearer to `p`. -/
lemma ahead_next (hc : c ≤ n) (hp : p < n) (hq : q < n) (h : ahead n c q < ahead n c p) :
    ahead n (q + 1) p + (ahead n c q + 1) = ahead n c p := by
  rcases Nat.lt_or_ge q c with hqc | hqc <;> rcases Nat.lt_or_ge p c with hpc | hpc
  · rw [ahead_of_lt hc hqc, ahead_of_lt hc hpc] at *
    rw [ahead_of_le hp (by omega)]
    omega
  · rw [ahead_of_lt hc hqc, ahead_of_le hp hpc] at h
    omega
  · rw [ahead_of_le hq hqc, ahead_of_lt hc hpc] at *
    rw [ahead_of_lt (by omega) (by omega)]
    omega
  · rw [ahead_of_le hq hqc, ahead_of_le hp hpc] at *
    rw [ahead_of_le hp (by omega)]
    omega

/-- From the old hand, a place that the new hand reaches before `p` lies behind the turn just given. -/
lemma ahead_behind (hc : c ≤ n) (hp : p < n) (hq : q < n) (hj : j < n) (h : ahead n c q < ahead n c p)
    (hnew : ahead n (q + 1) j < ahead n (q + 1) p) :
    ahead n c j = ahead n (q + 1) j + (ahead n c q + 1) := by
  have hpq : p ≠ q := by
    rintro rfl
    exact absurd h (Nat.lt_irrefl _)
  rcases Nat.lt_or_ge q c with hqc | hqc <;> rcases Nat.lt_or_ge p c with hpc | hpc
  · -- the hand passes from `q` to `p` without going around
    rw [ahead_of_lt hc hqc, ahead_of_lt hc hpc] at h
    rw [ahead_of_le hp (show q + 1 ≤ p by omega)] at hnew
    rcases Nat.lt_or_ge j (q + 1) with hjq | hjq
    · rw [ahead_of_lt hq hjq] at hnew
      omega
    · rw [ahead_of_le hj hjq] at hnew ⊢
      rw [ahead_of_lt hc hqc, ahead_of_lt hc (by omega)]
      omega
  · rw [ahead_of_lt hc hqc, ahead_of_le hp hpc] at h
    omega
  · -- it goes around between them
    rw [ahead_of_lt hq (show p < q + 1 by omega)] at hnew
    rcases Nat.lt_or_ge j (q + 1) with hjq | hjq
    · rw [ahead_of_lt hq hjq] at hnew ⊢
      rw [ahead_of_le hq hqc, ahead_of_lt hc (by omega)]
      omega
    · rw [ahead_of_le hj hjq] at hnew ⊢
      rw [ahead_of_le hq hqc, ahead_of_le hj (by omega)]
      omega
  · rw [ahead_of_le hq hqc, ahead_of_le hp hpc] at h
    rw [ahead_of_le hp (show q + 1 ≤ p by omega)] at hnew
    rcases Nat.lt_or_ge j (q + 1) with hjq | hjq
    · rw [ahead_of_lt hq hjq] at hnew
      omega
    · rw [ahead_of_le hj hjq] at hnew ⊢
      rw [ahead_of_le hq hqc, ahead_of_le hj (by omega)]
      omega

/-- **Bounded bypass.**  The turns before that of `p` go around once: each is farther ahead of the first
hand than the one before it, and none is beyond `p`. -/
theorem Before.increasing (hp : p < n) (l : List ℕ) {c : ℕ} (hc : c ≤ n) (h : Before n p c l) :
    (l.map (ahead n c)).Pairwise (· < ·) ∧ ∀ q ∈ l, q < n ∧ ahead n c q < ahead n c p := by
  induction l generalizing c with
  | nil => exact ⟨List.Pairwise.nil, List.forall_mem_nil _⟩
  | cons q l ih =>
      obtain ⟨hq, hlt, hl⟩ := h
      obtain ⟨hinc, hall⟩ := ih (show q + 1 ≤ n from hq) hl
      have hnext := ahead_next hc hp hq hlt
      have hshift : ∀ j ∈ l, ahead n c j = ahead n (q + 1) j + (ahead n c q + 1) :=
        fun j hj => ahead_behind hc hp hq (hall j hj).1 hlt (hall j hj).2
      refine ⟨List.pairwise_cons.mpr ⟨?_, ?_⟩, List.forall_mem_cons.mpr ⟨⟨hq, hlt⟩, ?_⟩⟩
      · intro b hb
        obtain ⟨j, hj, rfl⟩ := List.mem_map.mp hb
        rw [hshift j hj]
        omega
      · rw [List.pairwise_map] at hinc ⊢
        refine hinc.imp_of_mem ?_
        intro i j hi hj hij
        rw [hshift i hi, hshift j hj]
        omega
      · intro j hj
        have := (hall j hj).2
        rw [hshift j hj]
        exact ⟨(hall j hj).1, by omega⟩

/-- So nobody gets two turns before `p` gets one. -/
theorem Before.nodup (hp : p < n) (hc : c ≤ n) {l : List ℕ} (h : Before n p c l) : l.Nodup :=
  List.Nodup.of_map _ ((h.increasing hp l hc).1.imp Nat.ne_of_lt)

/-- And `p` is passed over no oftener than there are places before it. -/
theorem Before.length_le (hp : p < n) (hc : c ≤ n) {l : List ℕ} (h : Before n p c l) :
    l.length ≤ ahead n c p := by
  obtain ⟨hinc, hall⟩ := h.increasing hp l hc
  have hnodup : (l.map (ahead n c)).Nodup := hinc.imp Nat.ne_of_lt
  have hsub : l.map (ahead n c) ⊆ List.range (ahead n c p) := by
    intro b hb
    obtain ⟨j, hj, rfl⟩ := List.mem_map.mp hb
    exact List.mem_range.mpr (hall j hj).2
  simpa using (List.subperm_of_subset hnodup hsub).length_le

end Turns
