import Mathlib.Algebra.BigOperators.Group.List.Basic
import Mathlib.Algebra.GroupWithZero.Nat

/-!
# Sums in words

Words of `w` bits are added one after another, each sum to the width of a word.  `Exact a bs` says
that none of the additions carries out, and then the sum is the sum of the numbers.
-/

namespace Carry

variable {w : ℕ} {a : BitVec w} {bs : List (BitVec w)}

/-- No addition of `bs` to `a`, one after another, carries out of the word. -/
def Exact (a : BitVec w) : List (BitVec w) → Prop
  | [] => True
  | b :: bs => ¬ a.uaddOverflow b ∧ Exact (a + b) bs

instance decidableExact (a : BitVec w) : (bs : List (BitVec w)) → Decidable (Exact a bs)
  | [] => .isTrue trivial
  | b :: bs =>
      have := decidableExact (a + b) bs
      inferInstanceAs (Decidable (¬ a.uaddOverflow b ∧ Exact (a + b) bs))

/-- The sum to the width of a word. -/
def total (a : BitVec w) (bs : List (BitVec w)) : BitVec w := bs.foldl (· + ·) a

/-- The sum of the numbers. -/
def natTotal (a : BitVec w) (bs : List (BitVec w)) : ℕ := a.toNat + (bs.map BitVec.toNat).sum

lemma exact_cons {b : BitVec w} : Exact a (b :: bs) ↔ ¬ a.uaddOverflow b ∧ Exact (a + b) bs :=
  Iff.rfl

lemma natTotal_cons {b : BitVec w} (h : ¬ a.uaddOverflow b) :
    natTotal a (b :: bs) = natTotal (a + b) bs := by
  rw [natTotal, natTotal, BitVec.toNat_add_of_not_uaddOverflow h, List.map_cons, List.sum_cons]
  omega

/-- There is no carry exactly when the sum of the numbers is one of the word's. -/
theorem exact_iff : Exact a bs ↔ natTotal a bs < 2 ^ w := by
  induction bs generalizing a with
  | nil =>
      rw [natTotal, List.map_nil, List.sum_nil, Nat.add_zero]
      exact iff_of_true trivial a.isLt
  | cons b bs ih =>
      by_cases h : a.uaddOverflow b
      · have hle : 2 ^ w ≤ a.toNat + b.toNat := by simpa [BitVec.uaddOverflow] using h
        have hlt : ¬ natTotal a (b :: bs) < 2 ^ w := by
          rw [natTotal, List.map_cons, List.sum_cons]
          omega
        exact iff_of_false (fun he => he.1 h) hlt
      · rw [exact_cons, natTotal_cons h, ih]
        exact and_iff_right h

/-- Without a carry the sum in words is the sum of the numbers. -/
theorem toNat_total (h : Exact a bs) : (total a bs).toNat = natTotal a bs := by
  induction bs generalizing a with
  | nil => rfl
  | cons b bs ih => rw [natTotal_cons h.1, ← ih h.2, total, total, List.foldl_cons]

end Carry
