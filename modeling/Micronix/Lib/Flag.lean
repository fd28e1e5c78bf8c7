import Mathlib.Logic.Basic
import Mathlib.Tactic.SplitIfs

/-!
# A flag that stands for a sole owner

Things of a kind that is `sticky` may have one owner at a time, others any number; a flag on each
thing is set while a sole owner has it.  `Sole` says that the flags are right.  The rules are what an
owner does: it enters, it leaves and clears the flag, it goes on under another name.
-/

variable {ι ω : Type*}

/-- A thing with the flag has exactly one owner, and a sticky thing with an owner has the flag. -/
structure Sole (flag sticky : ι → Bool) (own : ι → ω → Prop) : Prop where
  lone : ∀ i, flag i = true → ∃ w, own i w ∧ ∀ w', own i w' → w' = w
  locked : ∀ i w, sticky i = true → own i w → flag i = true

namespace Sole

variable {flag sticky flag' sticky' : ι → Bool} {own own' : ι → ω → Prop} {i : ι} {w w' : ω}

lemma congr (h : Sole flag sticky own) (hf : ∀ j, flag' j = flag j)
    (hs : ∀ j, sticky' j = sticky j) (ho : ∀ j w, own' j w ↔ own j w) : Sole flag' sticky' own' := by
  constructor
  · intro j hj
    obtain ⟨w, hw, hall⟩ := h.lone j (hf j ▸ hj)
    exact ⟨w, (ho j w).mpr hw, fun w' hw' => hall w' ((ho j w').mp hw')⟩
  · intro j w hj hw
    rw [hf]
    exact h.locked j w (hs j ▸ hj) ((ho j w).mp hw)

/-- A sticky thing has one owner at most. -/
lemma eq (h : Sole flag sticky own) (hs : sticky i = true) (hw : own i w) (hw' : own i w') :
    w = w' := by
  obtain ⟨v, -, hall⟩ := h.lone i (h.locked i w hs hw)
  exact (hall w hw).trans (hall w' hw').symm

/-- Without an owner there is no flag. -/
lemma flag_eq_false (h : Sole flag sticky own) (hno : ∀ w, ¬own i w) : flag i = false := by
  refine Bool.eq_false_iff.mpr fun hc => ?_
  obtain ⟨w, hw, -⟩ := h.lone i hc
  exact hno w hw

/-- An owner leaves a thing without the flag. -/
lemma forget (h : Sole flag sticky own) (hf : flag i = false)
    (hf' : ∀ j, flag' j = flag j) (hs : ∀ j, sticky' j = sticky j)
    (ho : ∀ j v, own' j v ↔ own j v ∧ ¬(j = i ∧ v = w)) : Sole flag' sticky' own' := by
  constructor
  · intro j hj
    rw [hf'] at hj
    have hji : j ≠ i := by
      rintro rfl
      rw [hf] at hj
      exact absurd hj (by simp)
    obtain ⟨v, hv, hall⟩ := h.lone j hj
    refine ⟨v, (ho j v).mpr ⟨hv, fun hc => hji hc.1⟩, fun v' hv' => hall v' ((ho j v').mp hv').1⟩
  · intro j v hj hv
    rw [hf']
    exact h.locked j v (hs j ▸ hj) ((ho j v).mp hv).1

/-- An owner goes on under another name. -/
lemma rename (h : Sole flag sticky own) (hw : own i w) (hf' : ∀ j, flag' j = flag j)
    (hs : ∀ j, sticky' j = sticky j)
    (ho : ∀ j v, own' j v ↔ own j v ∧ ¬(j = i ∧ v = w) ∨ j = i ∧ v = w') :
    Sole flag' sticky' own' := by
  constructor
  · intro j hj
    rw [hf'] at hj
    obtain ⟨v, hv, hall⟩ := h.lone j hj
    by_cases hji : j = i
    · subst hji
      refine ⟨w', (ho j w').mpr (Or.inr ⟨rfl, rfl⟩), fun v' hv' => ?_⟩
      rcases (ho j v').mp hv' with ⟨hv', hne⟩ | ⟨-, rfl⟩
      · exact absurd ⟨rfl, (hall v' hv').trans (hall w hw).symm⟩ hne
      · rfl
    · refine ⟨v, (ho j v).mpr (Or.inl ⟨hv, fun hc => hji hc.1⟩), fun v' hv' => ?_⟩
      rcases (ho j v').mp hv' with ⟨hv', -⟩ | ⟨hji', -⟩
      · exact hall v' hv'
      · exact absurd hji' hji
  · intro j v hj hv
    rw [hs] at hj
    rw [hf']
    rcases (ho j v).mp hv with ⟨hv', -⟩ | ⟨rfl, -⟩
    · exact h.locked j v hj hv'
    · exact h.locked j w hj hw

variable [DecidableEq ι]

/-- **An owner enters** where the flag is clear, and sets it on a sticky thing. -/
lemma enter (h : Sole flag sticky own) (hf : flag i = false)
    (hf' : ∀ j, flag' j = if j = i then sticky i else flag j)
    (hs : ∀ j, sticky' j = sticky j) (ho : ∀ j v, own' j v ↔ own j v ∨ j = i ∧ v = w) :
    Sole flag' sticky' own' := by
  have hnone : sticky i = true → ∀ v, ¬own i v := by
    intro hst v hv
    rw [h.locked i v hst hv] at hf
    exact absurd hf (by simp)
  constructor
  · intro j hj
    rw [hf'] at hj
    split_ifs at hj with hji
    · subst hji
      refine ⟨w, (ho j w).mpr (Or.inr ⟨rfl, rfl⟩), fun v hv => ?_⟩
      rcases (ho j v).mp hv with hv | ⟨-, rfl⟩
      · exact absurd hv (hnone hj v)
      · rfl
    · obtain ⟨v, hv, hall⟩ := h.lone j hj
      refine ⟨v, (ho j v).mpr (Or.inl hv), fun v' hv' => ?_⟩
      rcases (ho j v').mp hv' with hv' | ⟨hji', -⟩
      · exact hall v' hv'
      · exact absurd hji' hji
  · intro j v hj hv
    rw [hs] at hj
    rw [hf']
    split_ifs with hji
    · exact hji ▸ hj
    · rcases (ho j v).mp hv with hv | ⟨hji', -⟩
      · exact h.locked j v hj hv
      · exact absurd hji' hji

/-- **An owner leaves** and clears the flag. -/
lemma leave (h : Sole flag sticky own) (hw : own i w)
    (hf' : ∀ j, flag' j = if j = i then false else flag j)
    (hs : ∀ j, sticky' j = sticky j) (ho : ∀ j v, own' j v ↔ own j v ∧ ¬(j = i ∧ v = w)) :
    Sole flag' sticky' own' := by
  constructor
  · intro j hj
    rw [hf'] at hj
    split_ifs at hj with hji
    obtain ⟨v, hv, hall⟩ := h.lone j hj
    refine ⟨v, (ho j v).mpr ⟨hv, fun hc => hji hc.1⟩, fun v' hv' => hall v' ((ho j v').mp hv').1⟩
  · intro j v hj hv
    rw [hs] at hj
    obtain ⟨hv', hne⟩ := (ho j v).mp hv
    rw [hf']
    split_ifs with hji
    · -- a sticky thing had no other owner
      subst hji
      exact absurd ⟨rfl, h.eq hj hv' hw⟩ hne
    · exact h.locked j v hj hv'

/-- A thing becomes sticky, or not: only one without owners, or with the flag, may. -/
lemma restick (h : Sole flag sticky own) {b : Bool}
    (hb : b = true → flag i = true ∨ ∀ w, ¬own i w) (hf' : ∀ j, flag' j = flag j)
    (hs : ∀ j, sticky' j = if j = i then b else sticky j) (ho : ∀ j w, own' j w ↔ own j w) :
    Sole flag' sticky' own' := by
  constructor
  · intro j hj
    obtain ⟨w, hw, hall⟩ := h.lone j (hf' j ▸ hj)
    exact ⟨w, (ho j w).mpr hw, fun w' hw' => hall w' ((ho j w').mp hw')⟩
  · intro j w hj hw
    rw [hs] at hj
    rw [hf']
    have hw' := (ho j w).mp hw
    split_ifs at hj with hji
    · subst hji
      exact (hb hj).resolve_right fun hno => hno w hw'
    · exact h.locked j w hj hw'

end Sole
