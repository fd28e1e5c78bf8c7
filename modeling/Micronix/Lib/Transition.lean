import Mathlib.Data.List.Basic

/-!
# Runs of a labelled transition function

A system is a partial step function `step : σ → ℓ → Option σ`: a label names which actor moves
and with what outcome, and `none` says that the label is not enabled.  Keeping the step a
function makes every concrete run computable (`run`), so a failing run is exhibited by
evaluation; keeping reachability an inductive predicate (`Reach`) gives the induction rule.

`Reach` carries a guard `ok s l`: only steps whose label is acceptable *in the state before the
step* are taken.  With the guard `True` it is plain reachability; with a real guard it is the
set of states reached by the runs that keep to a discipline.
-/

namespace Transition

variable {σ ℓ : Type*}

/-- Feed a list of labels to the step function, stopping at the first one that is not enabled or
not acceptable. -/
def run (step : σ → ℓ → Option σ) (ok : σ → ℓ → Prop) [∀ s l, Decidable (ok s l)] :
    σ → List ℓ → Option σ
  | s, [] => some s
  | s, l :: ls => if ok s l then (step s l).bind fun s' => run step ok s' ls else none

/-- States reached from an initial one by steps that all satisfy the guard. -/
inductive Reach (step : σ → ℓ → Option σ) (start : σ → Prop) (ok : σ → ℓ → Prop) : σ → Prop
  | start {s : σ} : start s → Reach step start ok s
  | step {s s' : σ} {l : ℓ} :
      Reach step start ok s → ok s l → step s l = some s' → Reach step start ok s'

/-- Plain reachability: every enabled step may be taken. -/
abbrev Reachable (step : σ → ℓ → Option σ) (start : σ → Prop) : σ → Prop :=
  Reach step start fun _ _ => True

variable {step : σ → ℓ → Option σ} {start : σ → Prop} {ok ok' : σ → ℓ → Prop}

/-- **The invariant rule.**  What holds initially and is kept by every guarded step holds in
every state reached. -/
theorem Reach.invariant {I : σ → Prop} (h0 : ∀ s, start s → I s)
    (hstep : ∀ s l s', I s → ok s l → step s l = some s' → I s') {s : σ}
    (h : Reach step start ok s) : I s := by
  induction h with
  | start hs => exact h0 _ hs
  | step _ hok he ih => exact hstep _ _ _ ih hok he

/-- A weaker guard reaches more. -/
theorem Reach.mono (h : ∀ s l, ok s l → ok' s l) {s : σ} (hr : Reach step start ok s) :
    Reach step start ok' s := by
  induction hr with
  | start hs => exact .start hs
  | step _ hok he ih => exact .step ih (h _ _ hok) he

/-- Runs compose with reachability. -/
theorem Reach.run_append [∀ s l, Decidable (ok s l)] {s : σ} (hr : Reach step start ok s) :
    ∀ {ls : List ℓ} {s' : σ}, run step ok s ls = some s' → Reach step start ok s'
  | [], s', h => by
      simp only [run, Option.some.injEq] at h
      exact h ▸ hr
  | l :: ls, s', h => by
      rw [run] at h
      split_ifs at h with hok
      obtain ⟨t, ht, hrest⟩ := Option.bind_eq_some_iff.mp h
      exact Reach.run_append (.step hr hok ht) hrest

/-- An evaluated run ends in a reached state. -/
theorem Reach.of_run [∀ s l, Decidable (ok s l)] {s s' : σ} {ls : List ℓ} (hs : start s)
    (h : run step ok s ls = some s') : Reach step start ok s' :=
  Reach.run_append (.start hs) h

/-- **The measure rule.**  If no step makes a measure larger and each step that counts makes it
smaller, then a run has at most as many steps that count as the measure is at its start. -/
theorem run_length [∀ s l, Decidable (ok s l)] {I : σ → Prop} {m : σ → ℕ} {c : ℓ → Bool}
    (hstep : ∀ s l s', I s → step s l = some s' →
      I s' ∧ (c l = true → m s' < m s) ∧ m s' ≤ m s) :
    ∀ {ls : List ℓ} {s s' : σ}, I s → run step ok s ls = some s' →
      (ls.filter c).length + m s' ≤ m s
  | [], s, s', _, h => by
      simp only [run, Option.some.injEq] at h
      simp [h]
  | l :: ls, s, s', hi, h => by
      rw [run] at h
      split_ifs at h
      obtain ⟨t, ht, hrest⟩ := Option.bind_eq_some_iff.mp h
      obtain ⟨hi', hlt, hle⟩ := hstep s l t hi ht
      have ih := run_length hstep hi' hrest
      rw [List.filter_cons]
      split_ifs with hc
      · have hlt' := hlt hc
        rw [List.length_cons]
        omega
      · omega

end Transition
