import Mathlib.Algebra.Notation.Defs
import Mathlib.Data.List.Basic
import Mathlib.Tactic.SplitIfs

/-!
# Strings packed one behind the other

A string is a list without the terminator 0.  `pack` puts strings one behind the other, each with its
terminator; the `j`-th one starts at `start ss j`.  Whatever walks over the packed strings finds the
end of a string exactly where the next one starts (`pack_eq_zero_iff`).
-/

/-- A string: a list without the terminator. -/
def Text (α : Type*) [Zero α] := { l : List α // (0 : α) ∉ l }

namespace Packed

variable {α : Type*} [Zero α]

/-- The strings with their terminators. -/
def pack (ss : List (Text α)) : List α :=
  ss.flatMap fun s => s.1 ++ [0]

/-- Where the `j`-th string starts. -/
def start (ss : List (Text α)) (j : ℕ) : ℕ :=
  (pack (ss.take j)).length

variable {ss : List (Text α)} {j i : ℕ}

@[simp] lemma pack_nil : pack ([] : List (Text α)) = [] := rfl

@[simp] lemma pack_cons {s : Text α} : pack (s :: ss) = s.1 ++ 0 :: pack ss := by
  rw [pack, List.flatMap_cons, List.append_assoc]
  rfl

lemma pack_append {ss' : List (Text α)} : pack (ss ++ ss') = pack ss ++ pack ss' :=
  List.flatMap_append

@[simp] lemma start_zero : start ss 0 = 0 := rfl

lemma start_length : start ss ss.length = (pack ss).length := by
  rw [start, List.take_length]

lemma start_succ (h : j < ss.length) : start ss (j + 1) = start ss j + ss[j].1.length + 1 := by
  rw [start, List.take_succ_eq_append_getElem h, pack_append, List.length_append, pack_cons,
    pack_nil, List.length_append, List.length_singleton, ← Nat.add_assoc]
  rfl

lemma start_lt (h : j < ss.length) : start ss j < start ss (j + 1) := by
  rw [start_succ h]
  omega

lemma start_mono {k : ℕ} (h : j ≤ k) : start ss j ≤ start ss k := by
  have hsplit : ss.take k = ss.take j ++ (ss.take k).drop j := by
    conv_lhs => rw [← List.take_append_drop j (ss.take k)]
    rw [List.take_take, Nat.min_eq_left h]
  rw [start, start, hsplit, pack_append, List.length_append]
  exact Nat.le_add_right _ _

lemma start_le : start ss j ≤ (pack ss).length := by
  rcases Nat.le_total j ss.length with h | h
  · rw [← start_length]
    exact start_mono h
  · have hall : start ss j = (pack ss).length := by rw [start, List.take_of_length_le h]
    exact Nat.le_of_eq hall

/-- What stands before a string, the string with its terminator, and what follows. -/
lemma pack_split (h : j < ss.length) :
    pack ss = pack (ss.take j) ++ (ss[j].1 ++ 0 :: pack (ss.drop (j + 1))) := by
  conv_lhs => rw [← List.take_append_drop j ss, List.drop_eq_getElem_cons h]
  rw [pack_append, pack_cons]

/-- The values of a string. -/
lemma pack_get (h : j < ss.length) (hi : i < ss[j].1.length) :
    (pack ss)[start ss j + i]? = some ss[j].1[i] := by
  rw [pack_split h, start, List.getElem?_append_right (Nat.le_add_right _ _), Nat.add_sub_cancel_left,
    List.getElem?_append_left hi, List.getElem?_eq_getElem hi]

/-- The terminator of a string. -/
lemma pack_end (h : j < ss.length) : (pack ss)[start ss j + ss[j].1.length]? = some 0 := by
  rw [pack_split h, start, List.getElem?_append_right (Nat.le_add_right _ _), Nat.add_sub_cancel_left,
    List.getElem?_append_right (Nat.le_refl _), Nat.sub_self]
  rfl

/-- A terminator stands right before the next string, and nowhere else. -/
lemma pack_eq_zero_iff (h : j < ss.length) (hlo : start ss j ≤ i) (hhi : i < start ss (j + 1)) :
    (pack ss)[i]? = some 0 ↔ i + 1 = start ss (j + 1) := by
  rw [start_succ h] at hhi ⊢
  obtain ⟨k, rfl⟩ := Nat.exists_eq_add_of_le hlo
  rcases Nat.lt_or_ge k ss[j].1.length with hk | hk
  · rw [pack_get h hk]
    refine iff_of_false (fun h0 => ?_) (by omega)
    exact ss[j].2 (Option.some.inj h0 ▸ List.getElem_mem hk)
  · obtain rfl : k = ss[j].1.length := by omega
    exact iff_of_true (pack_end h) rfl

/-- Every value belongs to a string. -/
lemma exists_start (h : i < (pack ss).length) :
    ∃ j, j < ss.length ∧ start ss j ≤ i ∧ i < start ss (j + 1) := by
  rw [← start_length] at h
  suffices hind : ∀ n, i < start ss n → n ≤ ss.length →
      ∃ j, j < ss.length ∧ start ss j ≤ i ∧ i < start ss (j + 1) from hind _ h (Nat.le_refl _)
  intro n
  induction n with
  | zero => exact fun h0 => absurd h0 (Nat.not_lt_zero i)
  | succ n ih =>
      intro hlt hle
      rcases Nat.lt_or_ge i (start ss n) with hn | hn
      · exact ih hn (Nat.le_of_succ_le hle)
      · exact ⟨n, hle, hn, hlt⟩

end Packed
