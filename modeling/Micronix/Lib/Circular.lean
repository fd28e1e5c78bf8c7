import Mathlib.Data.Int.Notation
import Mathlib.Data.List.Nodup
import Mathlib.Logic.Function.Basic

/-!
# Circular lists with links both ways

Nodes are numbers, `next` and `prev` are the links.  `Circular next prev c` says that the nodes of `c` come
one after the other along `next`, and back along `prev`, and that the first comes after the last.  A ring
may be read from any of its nodes; so what is done at one of them need only be understood at the head.
-/

/-- From `a` the links lead through the nodes of a list to `z`, and back. -/
def Way (next prev : ℕ → ℕ) : ℕ → List ℕ → ℕ → Prop
  | a, [], z => next a = z ∧ prev z = a
  | a, b :: l, z => (next a = b ∧ prev b = a) ∧ Way next prev b l z

namespace Way

variable {next prev next' prev' : ℕ → ℕ} {a b z : ℕ} {l m : List ℕ}

/-- The links that do not lie on the way do not matter. -/
lemma congr (h : Way next prev a l z) (hnext : ∀ x ∈ a :: l, next' x = next x)
    (hprev : ∀ x ∈ l ++ [z], prev' x = prev x) : Way next' prev' a l z := by
  induction l generalizing a with
  | nil => exact ⟨(hnext a (by simp)).trans h.1, (hprev z (by simp)).trans h.2⟩
  | cons b l ih =>
      refine ⟨⟨(hnext a (by simp)).trans h.1.1, (hprev b (by simp)).trans h.1.2⟩, ih h.2 ?_ ?_⟩
      · exact fun x hx => hnext x (List.mem_cons_of_mem a hx)
      · exact fun x hx => hprev x (List.mem_cons_of_mem b hx)

/-- A way is cut at each of its nodes. -/
lemma append : Way next prev a (l ++ b :: m) z ↔ Way next prev a l b ∧ Way next prev b m z := by
  induction l generalizing a with
  | nil => exact Iff.rfl
  | cons w l ih => exact (and_congr_right fun _ => ih).trans and_assoc.symm

/-- The links at each place. -/
lemma links (h : Way next prev a l z) (i : ℕ) (hi : i < (a :: l).length) :
    ∃ x y, (a :: l)[i]? = some x ∧ (l ++ [z])[i]? = some y ∧ next x = y ∧ prev y = x := by
  induction l generalizing a i with
  | nil =>
      obtain rfl : i = 0 := Nat.lt_one_iff.mp hi
      exact ⟨a, z, rfl, rfl, h.1, h.2⟩
  | cons b l ih =>
      cases i with
      | zero => exact ⟨a, b, rfl, rfl, h.1.1, h.1.2⟩
      | succ i => exact ih h.2 i (Nat.lt_of_succ_lt_succ hi)

end Way

/-- The nodes `c` form a ring. -/
def Circular (next prev : ℕ → ℕ) : List ℕ → Prop
  | [] => False
  | a :: l => (a :: l).Nodup ∧ Way next prev a l a

namespace Circular

variable {next prev : ℕ → ℕ} {a b p r z : ℕ} {w l m : List ℕ}

lemma nodup (h : Circular next prev w) : w.Nodup := by
  cases w with
  | nil => exact h.elim
  | cons a l => exact h.1

lemma length_pos (h : Circular next prev w) : 0 < w.length := by
  cases w with
  | nil => exact h.elim
  | cons a l => exact Nat.succ_pos _

/-- One node for itself. -/
lemma single (hnext : next a = a) (hprev : prev a = a) : Circular next prev [a] :=
  ⟨List.nodup_singleton a, hnext, hprev⟩

/-- A ring is read from any of its nodes. -/
lemma rotate (h : Circular next prev (l ++ m)) : Circular next prev (m ++ l) := by
  cases l with
  | nil => rwa [List.append_nil]
  | cons a l =>
      cases m with
      | nil => rwa [List.append_nil] at h
      | cons b m =>
          obtain ⟨hnodup, hway⟩ := h
          obtain ⟨h1, h2⟩ := Way.append.mp hway
          have hall : ((a :: l) ++ (b :: m)).Nodup := hnodup
          exact ⟨List.nodup_append_comm.mp hall, Way.append.mpr ⟨h2, h1⟩⟩

/-! ## The nodes by number -/

/-- The node with a number, counted around. -/
def nth (w : List ℕ) (i : ℤ) : ℕ := (w[(i % w.length).toNat]?).getD 0

/-- The numbers of the nodes themselves. -/
lemma nth_of_get {i : ℕ} (h : w[i]? = some a) : nth w i = a := by
  have hi := (List.getElem?_eq_some_iff.mp h).1
  have hmod : ((i : ℤ) % w.length).toNat = i := by
    rw [Int.emod_eq_of_lt (by omega) (by omega), Int.toNat_natCast]
  rw [nth, hmod, h]
  rfl

/-- Behind the last node comes the first. -/
lemma nth_length (a : ℕ) (l : List ℕ) : nth (a :: l) (l.length + 1) = a := by
  have hmod : ((l.length : ℤ) + 1) % ((a :: l).length : ℤ) = 0 := by
    rw [List.length_cons]
    exact Int.emod_self
  rw [nth, hmod]
  rfl

/-- The links go to the numbers above and below. -/
lemma nth_links (h : Circular next prev w) (i : ℤ) :
    next (nth w i) = nth w (i + 1) ∧ prev (nth w (i + 1)) = nth w i := by
  cases w with
  | nil => exact h.elim
  | cons a l =>
      set n := (a :: l).length with hn
      have hpos : (0 : ℤ) < n := Int.natCast_pos.mpr (Nat.succ_pos _)
      have hlt := Int.emod_lt_of_pos i hpos
      have hge := Int.emod_nonneg i (Int.ne_of_gt hpos)
      obtain ⟨x, y, hx, hy, hnext, hprev⟩ := h.2.links (i % n).toNat (by omega)
      have hx' : nth (a :: l) i = x := by
        rw [nth, hx]
        rfl
      have hy' : nth (a :: l) (i + 1) = y := by
        have hlen : l.length + 1 = n := rfl
        by_cases hlast : i % n + 1 = n
        · -- the first comes after the last
          have hmod : (i + 1) % n = 0 := by
            rw [← Int.emod_add_emod, hlast, Int.emod_self]
          have hat : (i % n).toNat = l.length := by omega
          rw [hat, List.getElem?_append_right (Nat.le_refl _), Nat.sub_self] at hy
          rw [nth, hmod]
          exact Option.some.inj hy
        · have hmod : (i + 1) % n = i % n + 1 := by
            rw [← Int.emod_add_emod]
            exact Int.emod_eq_of_lt (by omega) (by omega)
          have hat : ((i + 1) % n).toNat = (i % n).toNat + 1 := by omega
          rw [List.getElem?_append_left (by omega)] at hy
          rw [nth, hat, List.getElem?_cons_succ, hy]
          rfl
      rw [hx', hy']
      exact ⟨hnext, hprev⟩

/-! ## New links -/

/-- A node is linked in behind `a`. -/
lemma insert_head (h : Circular next prev (a :: l)) (hp : p ∉ a :: l) :
    Circular (Function.update (Function.update next p (next a)) a p)
      (Function.update (Function.update prev p a) (next a) p) (a :: p :: l) := by
  obtain ⟨hnodup, hway⟩ := h
  obtain ⟨hal, hl⟩ := List.nodup_cons.mp hnodup
  obtain ⟨hpa, hpl⟩ := not_or.mp (mt List.mem_cons.mpr hp)
  refine ⟨List.nodup_cons.mpr ⟨?_, List.nodup_cons.mpr ⟨hpl, hl⟩⟩, ?_⟩
  · exact fun hin => (List.mem_cons.mp hin).elim (Ne.symm hpa) hal
  cases l with
  | nil =>
      obtain ⟨hnext, -⟩ := hway
      rw [hnext]
      refine ⟨⟨Function.update_self .., ?_⟩, ?_, Function.update_self ..⟩
      · rw [Function.update_of_ne hpa, Function.update_self]
      · rw [Function.update_of_ne hpa, Function.update_self]
  | cons b l =>
      obtain ⟨⟨hnext, -⟩, hrest⟩ := hway
      have hpb : p ≠ b := fun e => hpl (e ▸ List.mem_cons_self)
      have hbl := (List.nodup_cons.mp hl).1
      rw [hnext]
      refine ⟨⟨Function.update_self .., ?_⟩, ⟨?_, Function.update_self ..⟩, hrest.congr ?_ ?_⟩
      · rw [Function.update_of_ne hpb, Function.update_self]
      · rw [Function.update_of_ne hpa, Function.update_self]
      · intro x hx
        rw [Function.update_of_ne (ne_of_mem_of_not_mem hx hal),
          Function.update_of_ne (ne_of_mem_of_not_mem hx hpl)]
      · intro x hx
        rw [List.mem_append, List.mem_singleton] at hx
        have hxb : x ≠ b := by
          rintro rfl
          exact hx.elim hbl fun e => hal (e ▸ List.mem_cons_self)
        have hxp : x ≠ p := by
          rintro rfl
          exact hx.elim (fun hin => hpl (List.mem_cons_of_mem b hin)) hpa
        rw [Function.update_of_ne hxb, Function.update_of_ne hxp]

lemma mem_rotate (h : p ∈ r :: (m ++ l)) : p ∈ l ++ r :: m := by
  have hin : p ∈ (r :: m) ++ l := h
  exact List.mem_append.mpr (List.mem_append.mp hin).symm

/-- A node is linked in at any place. -/
theorem insert (h : Circular next prev (l ++ r :: m)) (hp : p ∉ l ++ r :: m) :
    Circular (Function.update (Function.update next p (next r)) r p)
      (Function.update (Function.update prev p r) (next r) p) (l ++ r :: p :: m) :=
  rotate (l := r :: p :: m) (insert_head (rotate h) fun hin => hp (mem_rotate hin))

/-- The node behind `z` is linked out. -/
lemma delete_second (h : Circular next prev (z :: r :: l)) :
    Circular (Function.update next (prev r) (next r)) (Function.update prev (next r) (prev r)) (z :: l) := by
  obtain ⟨hnodup, ⟨-, hprev⟩, hway⟩ := h
  obtain ⟨hz, hr⟩ := List.nodup_cons.mp hnodup
  have hzl : z ∉ l := fun hin => hz (List.mem_cons_of_mem r hin)
  obtain ⟨hrl, hl⟩ := List.nodup_cons.mp hr
  refine ⟨List.nodup_cons.mpr ⟨hzl, hl⟩, ?_⟩
  rw [hprev]
  cases l with
  | nil =>
      obtain ⟨hnext, -⟩ := hway
      rw [hnext]
      exact ⟨Function.update_self .., Function.update_self ..⟩
  | cons b l =>
      obtain ⟨⟨hnext, -⟩, hrest⟩ := hway
      rw [hnext]
      refine ⟨⟨Function.update_self .., Function.update_self ..⟩, hrest.congr ?_ ?_⟩
      · intro x hx
        exact Function.update_of_ne (ne_of_mem_of_not_mem hx hzl) ..
      · intro x hx
        rw [List.mem_append, List.mem_singleton] at hx
        refine Function.update_of_ne ?_ ..
        rintro rfl
        exact hx.elim (List.nodup_cons.mp hl).1 fun e => hzl (e ▸ List.mem_cons_self)

/-- A node is linked out at any place. -/
theorem delete (h : Circular next prev (l ++ z :: r :: m)) :
    Circular (Function.update next (prev r) (next r)) (Function.update prev (next r) (prev r))
      (l ++ z :: m) :=
  rotate (l := z :: m) (delete_second (rotate h))

end Circular
