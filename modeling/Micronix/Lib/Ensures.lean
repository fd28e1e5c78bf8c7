import Mathlib.Logic.Basic

/-!
# What every result of a computation satisfies

A routine that may not return is an `Option`.  `Ensures r Q` says that `Q` holds of the result if
there is one, and the rules follow the shape of the routine: a result, a sequence, a branch.
-/

universe u

variable {α β : Type u} {P Q : α → Prop} {R : β → Prop}

/-- If the routine returns then with a result that satisfies `Q`. -/
def Ensures (r : Option α) (Q : α → Prop) : Prop := ∀ a, r = some a → Q a

namespace Ensures

lemma some {a : α} (h : Q a) : Ensures (some a) Q := by
  rintro b ⟨⟩
  exact h

lemma none : Ensures (Option.none : Option α) Q := nofun

lemma mono {r : Option α} (h : Ensures r P) (hPQ : ∀ a, P a → Q a) : Ensures r Q :=
  fun a ha => hPQ a (h a ha)

/-- One routine after another. -/
lemma bind {r : Option α} {f : α → Option β} (h : Ensures r P) (hf : ∀ a, P a → Ensures (f a) R) :
    Ensures (r >>= f) R := by
  intro b hb
  obtain ⟨a, ha, hfa⟩ := Option.bind_eq_some_iff.mp hb
  exact hf a (h a ha) b hfa

lemma map {r : Option α} {f : α → β} (h : Ensures r fun a => R (f a)) : Ensures (r.map f) R := by
  intro b hb
  obtain ⟨a, ha, rfl⟩ := Option.map_eq_some_iff.mp hb
  exact h a ha

lemma ite {c : Prop} [Decidable c] {r s : Option α} (h : c → Ensures r Q) (h' : ¬ c → Ensures s Q) :
    Ensures (if c then r else s) Q := by
  split
  · exact h ‹_›
  · exact h' ‹_›

/-- A loop, by induction on what it runs through. -/
lemma foldlM {I : α → α → Prop} (hrefl : ∀ a, I a a) (htrans : ∀ a b c, I a b → I b c → I a c)
    {f : α → β → Option α} {l : List β} (h : ∀ a, ∀ b ∈ l, Ensures (f a b) (I a)) (a : α) :
    Ensures (l.foldlM f a) (I a) := by
  induction l generalizing a with
  | nil => exact .some (hrefl a)
  | cons b l ih =>
      rw [List.foldlM_cons]
      exact (h a b List.mem_cons_self).bind fun c hac =>
        (ih (fun d e he => h d e (List.mem_cons_of_mem b he)) c).mono fun d => htrans a c d hac

end Ensures
