import Mathlib.Tactic.Common

/-!
# Replaying a list

`l.foldlM f s` replays the items of `l` one after another on the state `s`, and each of them may fail.
An invariant speaks of the items that have been replayed and of the state.
-/

universe u v

namespace Replay

variable {α : Type u} {σ : Type v} {f : σ → α → Option σ} {I : List α → σ → Prop} {s s' : σ}
  {l done : List α}

/-- What each item keeps, from any point on. -/
lemma keeps_from (hstep : ∀ done, ∀ a ∈ l, ∀ s s', I done s → f s a = some s' →
    I (done ++ [a]) s') (h : I done s) (hrun : l.foldlM f s = some s') : I (done ++ l) s' := by
  induction l generalizing s done with
  | nil =>
      cases Option.some.inj hrun
      rw [List.append_nil]
      exact h
  | cons a l ih =>
      rw [List.foldlM_cons] at hrun
      obtain ⟨t, hone, hrest⟩ := Option.bind_eq_some_iff.mp hrun
      have hinv := hstep done a List.mem_cons_self s t h hone
      have := ih (fun done b hb => hstep done b (List.mem_cons_of_mem a hb)) hinv hrest
      rwa [List.append_assoc, List.singleton_append] at this

/-- What each item keeps, a whole replay keeps. -/
theorem keeps (hstep : ∀ done, ∀ a ∈ l, ∀ s s', I done s → f s a = some s' →
    I (done ++ [a]) s') (h : I [] s) (hrun : l.foldlM f s = some s') : I l s' :=
  keeps_from hstep h hrun

lemma runs_from (hstep : ∀ done, ∀ a ∈ l, ∀ s, I done s → ∃ s', f s a = some s' ∧
    I (done ++ [a]) s') (h : I done s) : ∃ s', l.foldlM f s = some s' := by
  induction l generalizing s done with
  | nil => exact ⟨s, rfl⟩
  | cons a l ih =>
      obtain ⟨t, hone, hinv⟩ := hstep done a List.mem_cons_self s h
      obtain ⟨s', hrest⟩ := ih (fun done b hb => hstep done b (List.mem_cons_of_mem a hb)) hinv
      exact ⟨s', by rw [List.foldlM_cons, hone]; exact hrest⟩

/-- A replay comes to its end if no item fails where the invariant holds. -/
theorem runs (hstep : ∀ done, ∀ a ∈ l, ∀ s, I done s → ∃ s', f s a = some s' ∧
    I (done ++ [a]) s') (h : I [] s) : ∃ s', l.foldlM f s = some s' := runs_from hstep h

/-- Items that change nothing. -/
theorem same (h : ∀ a ∈ l, f s a = some s) : l.foldlM f s = some s := by
  obtain ⟨s', hrun⟩ := runs (I := fun _ t => t = s) (l := l) (f := f)
    (fun _ a ha t ht => ⟨s, ht ▸ h a ha, rfl⟩) rfl
  have heq := keeps (I := fun _ t => t = s)
    (fun _ a ha t t' ht hone => Option.some.inj (hone.symm.trans (ht ▸ h a ha))) rfl hrun
  rw [hrun, heq]

end Replay
