import Mathlib.Data.List.Nodup
import Mathlib.Logic.Function.Basic

/-!
# Linked lists

Nodes are numbers other than 0, `next` is the link of each node, and 0 is the null link.
`Linked next a bs` says that the nodes from `a` on are those of the list `bs`.
-/

/-- The nodes from `a` on, along `next`, up to 0. -/
def Linked (next : ℕ → ℕ) : ℕ → List ℕ → Prop
  | a, [] => a = 0
  | a, b :: bs => a = b ∧ b ≠ 0 ∧ Linked next (next b) bs

namespace Linked

variable {next next' : ℕ → ℕ} {a b c : ℕ} {bs cs : List ℕ}

@[simp] lemma nil : Linked next a [] ↔ a = 0 := Iff.rfl

@[simp] lemma cons : Linked next a (b :: bs) ↔ a = b ∧ b ≠ 0 ∧ Linked next (next b) bs := Iff.rfl

lemma zero : Linked next 0 [] := rfl

lemma eq_zero_iff (h : Linked next a bs) : a = 0 ↔ bs = [] := by
  cases bs with
  | nil => exact iff_of_true h rfl
  | cons b bs => exact iff_of_false (h.1 ▸ h.2.1) nofun

lemma ne_zero : ∀ {bs : List ℕ} {a : ℕ}, Linked next a bs → ∀ b ∈ bs, b ≠ 0
  | [], _, _, _, hb => by cases hb
  | _ :: _, _, h, b, hb => by
      rcases List.mem_cons.mp hb with rfl | hb
      · exact h.2.1
      · exact ne_zero h.2.2 b hb

/-- The links outside of the list do not matter. -/
lemma congr : ∀ {bs : List ℕ} {a : ℕ}, Linked next a bs → (∀ b ∈ bs, next' b = next b) →
    Linked next' a bs
  | [], _, h, _ => h
  | b :: _, _, h, he =>
      ⟨h.1, h.2.1, he b List.mem_cons_self ▸
        congr h.2.2 fun c hc => he c (List.mem_cons_of_mem b hc)⟩

lemma update (h : Linked next a bs) (hb : b ∉ bs) : Linked (Function.update next b c) a bs :=
  h.congr fun _ hd => Function.update_of_ne (ne_of_mem_of_not_mem hd hb) _ _

/-- A list has one sequence of nodes. -/
lemma unique : ∀ {bs cs : List ℕ} {a : ℕ}, Linked next a bs → Linked next a cs → bs = cs
  | [], cs, _, h, h' => ((h'.eq_zero_iff).mp h).symm
  | _ :: _, [], _, h, h' => absurd h' (h.1 ▸ h.2.1)
  | b :: bs, c :: cs, _, h, h' => by
      obtain rfl : b = c := h.1.symm.trans h'.1
      rw [unique h.2.2 h'.2.2]

/-- The list that ends in `l` is linked to another one. -/
lemma append {l : ℕ} : ∀ {bs : List ℕ} {a : ℕ}, Linked next a (bs ++ [l]) → (bs ++ [l]).Nodup →
    Linked next c cs → l ∉ cs → Linked (Function.update next l c) a (bs ++ [l] ++ cs)
  | [], _, h, _, hc, hl => by
      refine ⟨h.1, h.2.1, ?_⟩
      rw [Function.update_self]
      exact hc.update hl
  | b :: bs, a, h, hn, hc, hl => by
      obtain ⟨hb, hn⟩ := List.nodup_cons.mp hn
      refine ⟨h.1, h.2.1, ?_⟩
      have hbl : b ≠ l := fun e => hb (by simp [e])
      rw [Function.update_of_ne hbl]
      exact append h.2.2 hn hc hl

end Linked
