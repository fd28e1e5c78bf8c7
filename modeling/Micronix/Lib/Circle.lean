import Mathlib.Data.List.Rotate
import Mathlib.Tactic.Common

/-!
# A circular scan

A loop that goes through the numbers from `lo` on, and begins at `lo` again when it is beyond `hi`,
goes through a rotation of the interval.  So with as many rounds as the interval has numbers it comes
to each of them once, wherever it begins.
-/

namespace Circle

/-- The numbers that the loop comes to in so many rounds, from `i` on. -/
def route (lo hi : ℕ) : ℕ → ℕ → List ℕ
  | 0, _ => []
  | limit + 1, i =>
      let i := if hi < i then lo else i
      i :: route lo hi limit (i + 1)

variable {lo n k limit i : ℕ}

/-- Beyond the interval the loop begins with `lo`. -/
lemma route_beyond {hi : ℕ} (h : hi < i) (hlo : lo ≤ hi) : route lo hi limit i = route lo hi limit lo := by
  cases limit with
  | zero => rfl
  | succ limit =>
      rw [route, route]
      simp only [if_pos h, if_neg (Nat.not_lt_of_le hlo)]

/-- Inside it, by induction on the rounds: the part from the beginning on, and then the part before. -/
lemma route_inside (limit : ℕ) : ∀ {k : ℕ}, limit ≤ n + 1 → k ≤ n →
    route lo (lo + n) limit (lo + k) = ((List.range' lo (n + 1)).rotate k).take limit := by
  induction limit with
  | zero => exact fun _ _ => rfl
  | succ limit ih =>
      intro k hl hk
      set L := List.range' lo (n + 1) with hL
      have hlen : L.length = n + 1 := List.length_range'
      have hlt : k < L.length := by omega
      have hget : L[k] = lo + k := by simp [hL]
      -- what is left after the first round is the rotation by one more
      have hstep : L.rotate k = (lo + k) :: (L.drop (k + 1) ++ L.take k) := by
        rw [List.rotate_eq_drop_append_take (show k ≤ L.length by omega),
          List.drop_eq_getElem_cons (show k < L.length by omega), hget, List.cons_append]
      have hnext : (L.drop (k + 1) ++ L.take k).take limit = (L.rotate (k + 1)).take limit := by
        have htake : L.take (k + 1) = L.take k ++ [lo + k] := by
          rw [List.take_add_one, List.getElem?_eq_getElem (show k < L.length by omega), hget]
          rfl
        rw [List.rotate_eq_drop_append_take (show k + 1 ≤ L.length by omega), htake, ← List.append_assoc]
        refine (List.take_append_of_le_length ?_).symm
        simp only [List.length_append, List.length_drop, List.length_take, hlen]
        omega
      rw [route, if_neg (by omega), hstep, List.take_succ_cons, hnext]
      congr 1
      by_cases hlast : k = n
      · -- the next round begins with `lo` again
        subst hlast
        have hbeyond : route lo (lo + k) limit (lo + k + 1) = route lo (lo + k) limit lo :=
          route_beyond (by omega) (by omega)
        have hzero := ih (k := 0) (by omega) (Nat.zero_le _)
        rw [Nat.add_zero, List.rotate_zero] at hzero
        have hfull : L.rotate (k + 1) = L := by
          rw [← hlen, List.rotate_length]
        rw [hfull, ← hzero]
        exact hbeyond
      · exact ih (k := k + 1) (by omega) (by omega)

/-- **The scan.**  From a number in the interval, or beyond it, with as many rounds as the interval
has numbers, the loop comes to each of them once. -/
theorem route_perm {hi : ℕ} (hi' : lo ≤ i) (h : lo ≤ hi) :
    (route lo hi (hi + 1 - lo) i).Perm (List.range' lo (hi + 1 - lo)) := by
  obtain ⟨n, rfl⟩ := Nat.exists_eq_add_of_le h
  have hn : lo + n + 1 - lo = n + 1 := by omega
  rw [hn]
  have hinside {k : ℕ} (hk : k ≤ n) :
      (route lo (lo + n) (n + 1) (lo + k)).Perm (List.range' lo (n + 1)) := by
    rw [route_inside (n + 1) (Nat.le_refl _) hk, List.take_of_length_le (by simp)]
    exact List.rotate_perm ..
  by_cases hb : lo + n < i
  · rw [route_beyond hb (by omega)]
    exact hinside (Nat.zero_le n)
  · obtain ⟨k, rfl⟩ := Nat.exists_eq_add_of_le hi'
    exact hinside (by omega)

/-- From a number that the loop has come to, it goes through the same circle from there on. -/
theorem route_rotate {hi p : ℕ} (hi' : lo ≤ i) (h : lo ≤ hi) {j : ℕ}
    (hj : (route lo hi (hi + 1 - lo) i)[p]? = some j) :
    route lo hi (hi + 1 - lo) j = (route lo hi (hi + 1 - lo) i).rotate p := by
  obtain ⟨n, rfl⟩ := Nat.exists_eq_add_of_le h
  have hn : lo + n + 1 - lo = n + 1 := by omega
  rw [hn] at hj ⊢
  set L := List.range' lo (n + 1) with hL
  have hlen : L.length = n + 1 := List.length_range'
  have hinside {k : ℕ} (hk : k ≤ n) : route lo (lo + n) (n + 1) (lo + k) = L.rotate k := by
    rw [route_inside (n + 1) (Nat.le_refl _) hk, List.take_of_length_le (by simp)]
  -- the number is one of the interval
  have hget {k : ℕ} (hk : k ≤ n) (hjk : (L.rotate k)[p]? = some j) :
      route lo (lo + n) (n + 1) j = (L.rotate k).rotate p := by
    obtain ⟨hp, hj⟩ := List.getElem?_eq_some_iff.mp hjk
    have hmod : (p + k) % (n + 1) ≤ n := Nat.le_of_lt_succ (Nat.mod_lt _ (Nat.succ_pos n))
    have hval : j = lo + (p + k) % (n + 1) := by
      rw [← hj, List.getElem_rotate]
      simp [hL]
    rw [hval, hinside hmod, List.rotate_rotate, Nat.add_comm k p, ← List.rotate_mod L (p + k), hlen]
  by_cases hb : lo + n < i
  · rw [route_beyond hb (by omega)] at hj ⊢
    have hzero : route lo (lo + n) (n + 1) lo = L.rotate 0 := hinside (k := 0) (Nat.zero_le n)
    rw [hzero] at hj ⊢
    exact hget (Nat.zero_le n) hj
  · obtain ⟨k, rfl⟩ := Nat.exists_eq_add_of_le hi'
    have hk : k ≤ n := by omega
    rw [hinside hk] at hj ⊢
    exact hget hk hj

/-- From a number in the interval, or the one beyond it, the `k`-th number of the scan. -/
lemma route_get {hi : ℕ} (hi' : lo ≤ i) (h : lo ≤ hi) (hb : i ≤ hi + 1) (hk : k < hi + 1 - lo) :
    (route lo hi (hi + 1 - lo) i)[k]? = some (lo + (i - lo + k) % (hi + 1 - lo)) := by
  obtain ⟨n, rfl⟩ := Nat.exists_eq_add_of_le h
  have hn : lo + n + 1 - lo = n + 1 := by omega
  rw [hn] at hk ⊢
  have hinside {j : ℕ} (hj : j ≤ n) :
      (route lo (lo + n) (n + 1) (lo + j))[k]? = some (lo + (j + k) % (n + 1)) := by
    rw [route_inside (n + 1) (Nat.le_refl _) hj, List.take_of_length_le (by simp),
      List.getElem?_eq_getElem (by simpa using hk), List.getElem_rotate]
    simp [Nat.add_comm j k]
  by_cases hlast : lo + n < i
  · obtain rfl : i = lo + n + 1 := by omega
    rw [route_beyond hlast (by omega), show lo + n + 1 - lo + k = k + (n + 1) by omega,
      Nat.add_mod_right]
    simpa using hinside (Nat.zero_le n)
  · obtain ⟨j, rfl⟩ := Nat.exists_eq_add_of_le hi'
    rw [Nat.add_sub_cancel_left]
    exact hinside (by omega)

end Circle
