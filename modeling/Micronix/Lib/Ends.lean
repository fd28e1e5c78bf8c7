import Mathlib.Data.List.Basic

/-!
# What holds if a program comes to its end

A program that may stop is an `Except`.  `Ends r Q` says that `Q` holds of what it ends with, if it does;
the rules follow the shape of the program: a value, a sequence, a branch, a loop.
-/

universe u v

variable {ε : Type u} {α β γ : Type v}

/-- If the program comes to its end then with a value that satisfies `Q`. -/
def Ends (r : Except ε α) (Q : α → Prop) : Prop := ∀ a, r = .ok a → Q a

namespace Ends

variable {P Q : α → Prop} {R : β → Prop} {r : Except ε α}

lemma ok {a : α} (h : Q a) : Ends (.ok a : Except ε α) Q := by
  rintro b ⟨⟩
  exact h

lemma pure {a : α} (h : Q a) : Ends (pure a : Except ε α) Q := ok h

lemma error {e : ε} : Ends (.error e) Q := by
  rintro a ⟨⟩

lemma throw {e : ε} : Ends (throw e) Q := error

lemma mono (h : Ends r P) (hPQ : ∀ a, P a → Q a) : Ends r Q := fun a ha => hPQ a (h a ha)

/-- One program after another. -/
lemma bind {f : α → Except ε β} (h : Ends r P) (hf : ∀ a, P a → Ends (f a) R) :
    Ends (r >>= f) R := by
  intro b hb
  cases r with
  | error e => cases hb
  | ok a => exact hf a (h a rfl) b hb

lemma map {f : α → β} (h : Ends r fun a => R (f a)) : Ends (f <$> r) R := by
  intro b hb
  cases r with
  | error e => cases hb
  | ok a =>
      cases hb
      exact h a rfl

lemma ite {c : Prop} [Decidable c] {r s : Except ε α} (h : c → Ends r Q) (h' : ¬c → Ends s Q) :
    Ends (if c then r else s) Q := by
  by_cases hc : c
  · rw [if_pos hc]
    exact h hc
  · rw [if_neg hc]
    exact h' hc

/-- A loop whose invariant says what it has been through, from `pre` on. -/
lemma foldlM_from {f : β → α → Except ε β} {I : List α → β → Prop} {l : List α}
    (h : ∀ pre a post b, pre ++ a :: post = l → I pre b → Ends (f b a) (I (pre ++ [a])))
    (pre post : List α) (b : β) (hl : pre ++ post = l) (hb : I pre b) :
    Ends (post.foldlM f b) (I l) := by
  induction post generalizing pre b with
  | nil =>
      rw [List.append_nil] at hl
      subst hl
      exact pure hb
  | cons a post ih =>
      rw [List.foldlM_cons]
      refine bind (h pre a post b hl hb) fun b' hb' => ih (pre ++ [a]) b' ?_ hb'
      rw [List.append_assoc, List.singleton_append, hl]

/-- **The rule for loops.** -/
lemma foldlM {f : β → α → Except ε β} {I : List α → β → Prop} {l : List α} {b : β}
    (h : ∀ pre a post b, pre ++ a :: post = l → I pre b → Ends (f b a) (I (pre ++ [a])))
    (hb : I [] b) : Ends (l.foldlM f b) (I l) := foldlM_from h [] l b rfl hb

/-- A loop that makes of every element one that is related to it. -/
lemma mapM {f : α → Except ε β} {I : α → β → Prop} {l : List α} (h : ∀ a ∈ l, Ends (f a) (I a)) :
    Ends (l.mapM f) (List.Forall₂ I l) := by
  induction l with
  | nil =>
      rw [List.mapM_nil]
      exact pure .nil
  | cons a l ih =>
      rw [List.mapM_cons]
      refine bind (h a List.mem_cons_self) fun b hb => ?_
      refine bind (ih fun a ha => h a (List.mem_cons_of_mem _ ha)) fun bs hbs => ?_
      exact pure (.cons hb hbs)

end Ends
