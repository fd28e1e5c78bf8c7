import Mathlib.Data.List.Basic
import Mathlib.Data.List.Induction
import Mathlib.Tactic.Common

/-!
# The best of a list

A loop that goes through a list and keeps the best element so far passes over the elements that are no
candidates, takes the first that is one, and from then on keeps what it has or takes the next.
Whatever is better, it ends with a candidate of the list, and without one only if there is none.
-/

variable {α : Type*} {P : α → Prop} {f : Option α → α → Option α}

/-- One turn of such a loop. -/
structure Searches (P : α → Prop) (f : Option α → α → Option α) : Prop where
  skip : ∀ best b, ¬P b → f best b = best
  first : ∀ b, P b → f none b = some b
  next : ∀ a b, P b → f (some a) b = some a ∨ f (some a) b = some b

namespace Searches

/-- What is found is a candidate. -/
lemma found (h : Searches P f) (l : List α) (best : Option α) {g : α} (hg : l.foldl f best = some g) :
    best = some g ∨ g ∈ l ∧ P g := by
  induction l generalizing best with
  | nil => exact .inl hg
  | cons b l ih =>
      have hl : f best b = some g ∨ g ∈ l ∧ P g := ih _ hg
      rcases hl with hb | ⟨hmem, hP⟩
      · by_cases hP : P b
        · have htake : best = some g ∨ some b = some g := by
            cases best with
            | none => exact .inr ((h.first b hP).symm.trans hb)
            | some a => exact (h.next a b hP).imp (fun he => he.symm.trans hb) fun he => he.symm.trans hb
          refine htake.imp_right fun hbg => ?_
          obtain rfl := Option.some.inj hbg
          exact ⟨List.mem_cons_self, hP⟩
        · exact .inl ((h.skip best b hP).symm.trans hb)
      · exact .inr ⟨List.mem_cons_of_mem b hmem, hP⟩

/-- If nothing is found there is no candidate. -/
lemma not_found (h : Searches P f) (l : List α) (best : Option α) (hg : l.foldl f best = none) :
    best = none ∧ ∀ b ∈ l, ¬P b := by
  induction l generalizing best with
  | nil => exact ⟨hg, fun b hb => absurd hb List.not_mem_nil⟩
  | cons b l ih =>
      obtain ⟨hb, hl⟩ := ih _ hg
      have hP : ¬P b := by
        intro hP
        cases best with
        | none => cases (h.first b hP).symm.trans hb
        | some a =>
            rcases h.next a b hP with he | he
            · cases he.symm.trans hb
            · cases he.symm.trans hb
      exact ⟨(h.skip best b hP).symm.trans hb, List.forall_mem_cons.mpr ⟨hP, hl⟩⟩

end Searches

/-- One turn of a loop that keeps the first of the greatest candidates. -/
def climb (P : α → Prop) [DecidablePred P] (m : α → ℕ) (best : Option α) (b : α) : Option α :=
  match best with
  | none => if P b then some b else none
  | some a => if P b ∧ m a < m b then some b else some a

section Climb

variable [DecidablePred P] (m : α → ℕ)

lemma climb_searches : Searches P (climb P m) where
  skip := by
    intro best b hb
    cases best with
    | none => exact if_neg hb
    | some a => exact if_neg fun h => hb h.1
  first := fun b hb => if_pos hb
  next := by
    intro a b _
    by_cases h : P b ∧ m a < m b
    · exact .inr (if_pos h)
    · exact .inl (if_neg h)

/-- What is found is at least as great as every candidate, and as what one began with. -/
lemma climb_max (l : List α) (best : Option α) {g : α} (hg : l.foldl (climb P m) best = some g) :
    (∀ a, best = some a → m a ≤ m g) ∧ ∀ b ∈ l, P b → m b ≤ m g := by
  induction l generalizing best with
  | nil =>
      refine ⟨fun a ha => ?_, List.forall_mem_nil _⟩
      obtain rfl : a = g := Option.some.inj (ha.symm.trans hg)
      exact Nat.le_refl _
  | cons b l ih =>
      obtain ⟨hbest, hl⟩ := ih _ hg
      have hkeeps : ∀ a, best = some a → m a ≤ m g := by
        rintro a rfl
        by_cases h : P b ∧ m a < m b
        · exact Nat.le_trans (Nat.le_of_lt h.2) (hbest b (if_pos h))
        · exact hbest a (if_neg h)
      refine ⟨hkeeps, List.forall_mem_cons.mpr ⟨fun hP => ?_, hl⟩⟩
      cases best with
      | none => exact hbest b (if_pos hP)
      | some a =>
          by_cases h : m a < m b
          · exact hbest b (if_pos ⟨hP, h⟩)
          · exact Nat.le_trans (Nat.le_of_not_lt h) (hkeeps a rfl)

/-- **The first of the best.**  The greatest candidates all come after the one that is found. -/
theorem climb_first (l : List α) {g : α} (hg : l.foldl (climb P m) none = some g) :
    ∃ pre post, l = pre ++ g :: post ∧ ∀ b ∈ pre, P b → m b < m g := by
  induction l using List.reverseRecOn with
  | nil => cases hg
  | append_singleton l b ih =>
      rw [List.foldl_append, List.foldl_cons, List.foldl_nil] at hg
      cases hl : l.foldl (climb P m) none with
      | none =>
          rw [hl] at hg
          have hnone := ((climb_searches m).not_found l none hl).2
          by_cases hP : P b
          · obtain rfl : b = g := Option.some.inj ((if_pos hP).symm.trans hg)
            exact ⟨l, [], rfl, fun b hb hP => absurd hP (hnone b hb)⟩
          · cases (if_neg hP : climb P m none b = none).symm.trans hg
      | some a =>
          rw [hl] at hg
          by_cases h : P b ∧ m a < m b
          · obtain rfl : b = g := Option.some.inj ((if_pos h).symm.trans hg)
            refine ⟨l, [], rfl, fun b hb hP => ?_⟩
            exact Nat.lt_of_le_of_lt ((climb_max m l none hl).2 b hb hP) h.2
          · obtain rfl : a = g := Option.some.inj ((if_neg h).symm.trans hg)
            obtain ⟨pre, post, rfl, hpre⟩ := ih hl
            exact ⟨pre, post ++ [b], by simp, hpre⟩

end Climb
