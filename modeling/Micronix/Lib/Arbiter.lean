import Mathlib.Data.List.Basic

/-!
# A resource with a line

One contender is the master of a resource, and those that asked in vain stand in line for it.  Who gives
the resource up gives it to the first in line, and may go to the end of the line itself.
-/

/-- The master of a resource, and those in line for it. -/
structure Arbiter (α : Type*) where
  master : Option α
  line : List α

namespace Arbiter

variable {α : Type*} [DecidableEq α] {a : Arbiter α} {f g : α} {again : Option α}

/-- `f` asks for the resource. -/
def ask (a : Arbiter α) (f : α) : Arbiter α × Bool :=
  if a.master = none ∨ a.master = some f then ({ a with master := some f }, true)
  else ({ a with line := a.line.insert f }, false)

/-- The master gives the resource up. -/
def pass (a : Arbiter α) (again : Option α) : Arbiter α :=
  match a.line with
  | [] => { a with master := none }
  | g :: l => ⟨some g, l ++ again.toList⟩

/-- Nobody waits for a free resource, and the master does not wait. -/
structure Fair (a : Arbiter α) : Prop where
  free : a.line ≠ [] → a.master ≠ none
  apart : ∀ f, a.master = some f → f ∉ a.line

/-- Who is turned away stands in line. -/
lemma mem_line_of_ask (h : (a.ask f).2 = false) : f ∈ (a.ask f).1.line := by
  rw [ask] at h ⊢
  split_ifs at h ⊢
  exact List.mem_insert_self

/-- Asking takes nobody out of the line. -/
lemma mem_line_ask (hg : g ∈ a.line) : g ∈ (a.ask f).1.line := by
  rw [ask]
  split_ifs
  · exact hg
  · exact List.mem_insert_of_mem hg

omit [DecidableEq α] in
/-- Who stands in line when the resource is given up still does, or is its master. -/
lemma mem_line_pass (hg : g ∈ a.line) :
    g ∈ (a.pass again).line ∨ (a.pass again).master = some g := by
  rw [pass]
  cases hl : a.line with
  | nil =>
      rw [hl] at hg
      cases hg
  | cons f l =>
      rw [hl] at hg
      rcases List.mem_cons.mp hg with rfl | hin
      · exact Or.inr rfl
      · exact Or.inl (List.mem_append_left _ hin)

lemma Fair.ask (h : a.Fair) (f : α) : (a.ask f).1.Fair := by
  rw [Arbiter.ask]
  split_ifs with hm
  · refine ⟨fun _ => by simp, fun g hg hin => ?_⟩
    simp only [Option.some.injEq] at hg
    subst hg
    rcases hm with hm | hm
    · exact h.free (List.ne_nil_of_mem hin) hm
    · exact h.apart f hm hin
  · refine ⟨fun _ hn => hm (Or.inl hn), fun g hg hin => ?_⟩
    rcases List.mem_insert_iff.mp hin with rfl | hin
    · exact hm (Or.inr hg)
    · exact h.apart g hg hin

omit [DecidableEq α] in
/-- The line is fair if the first in line was in it once, and who goes to its end is not the first. -/
lemma fair_pass (hd : a.line.Nodup) (hagain : ∀ f, again = some f → f ∉ a.line) :
    (a.pass again).Fair := by
  rw [Arbiter.pass]
  cases hl : a.line with
  | nil => exact ⟨fun hne => absurd rfl hne, fun g hg => by cases hg⟩
  | cons f l =>
      rw [hl] at hd hagain
      refine ⟨fun _ => by simp, fun g hg hin => ?_⟩
      simp only [Option.some.injEq] at hg
      subst hg
      rcases List.mem_append.mp hin with hin | hin
      · exact (List.nodup_cons.mp hd).1 hin
      · exact hagain f (Option.mem_toList.mp hin) List.mem_cons_self

end Arbiter
