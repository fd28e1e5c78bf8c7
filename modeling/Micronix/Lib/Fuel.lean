import Mathlib.Tactic.Common

/-!
# A loop with fuel

`E f s` is the result of a loop from state `s` with fuel for `f` rounds, if it ends by then.  A loop
returns if each of its stages returns or leads to a later one, with a measure that decreases, and it
never returns if from the states of an invariant every round leads to another of them.
-/

universe u v

namespace Fuel

variable {σ : Type u} {ρ : Type v} {E : ℕ → σ → Option ρ} {Q : ρ → Prop} {s t r : σ}

/-- From `s` the loop comes to `t`. -/
def Leads (E : ℕ → σ → Option ρ) (s t : σ) : Prop := ∃ c, ∀ f, E (c + f) s = E f t

/-- With enough fuel the loop ends, with a result that satisfies `Q`. -/
def Returns (E : ℕ → σ → Option ρ) (Q : ρ → Prop) (s : σ) : Prop := ∃ f x, E f s = some x ∧ Q x

lemma Leads.refl (E : ℕ → σ → Option ρ) (s : σ) : Leads E s s :=
  ⟨0, fun f => by rw [Nat.zero_add]⟩

lemma Leads.trans (h : Leads E s t) (h' : Leads E t r) : Leads E s r := by
  obtain ⟨c, hc⟩ := h
  obtain ⟨c', hc'⟩ := h'
  exact ⟨c + c', fun f => by rw [Nat.add_assoc, hc, hc']⟩

/-- One round. -/
lemma Leads.round (h : ∀ f, E (f + 1) s = E f t) : Leads E s t :=
  ⟨1, fun f => by rw [Nat.add_comm, h]⟩

/-- What the loop does before its test. -/
lemma Leads.same (h : ∀ f, E f s = E f t) : Leads E s t := ⟨0, fun f => by rw [Nat.zero_add, h]⟩

lemma Returns.of_leads (h : Leads E s t) (hr : Returns E Q t) : Returns E Q s := by
  obtain ⟨c, hc⟩ := h
  obtain ⟨f, x, hx, hq⟩ := hr
  exact ⟨c + f, x, (hc f).trans hx, hq⟩

/-- Each stage returns or leads to one with a smaller measure. -/
theorem returns_of_measure {I : ℕ → σ → Prop}
    (hstep : ∀ k s, I k s → Returns E Q s ∨ ∃ k' < k, ∃ t, Leads E s t ∧ I k' t) (k : ℕ) :
    ∀ s, I k s → Returns E Q s := by
  induction k using Nat.strongRecOn with
  | ind k ih =>
      intro s hs
      rcases hstep k s hs with hr | ⟨k', hk, t, hl, ht⟩
      · exact hr
      · exact .of_leads hl (ih k' hk t ht)

/-- Each round leads to another one. -/
theorem not_returns {I : σ → Prop} (hzero : ∀ s, E 0 s = none)
    (hstep : ∀ s, I s → ∃ t, (∀ f, E (f + 1) s = E f t) ∧ I t) (f : ℕ) :
    ∀ s, I s → E f s = none := by
  induction f with
  | zero => exact fun s _ => hzero s
  | succ f ih =>
      intro s hs
      obtain ⟨t, ht, hi⟩ := hstep s hs
      rw [ht, ih t hi]

end Fuel
