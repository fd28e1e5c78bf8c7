import Mathlib.Data.List.Basic
import Mathlib.Logic.Function.Basic
import Mathlib.Tactic.Common

/-!
# A cache that writes back

A table of slots in front of a store.  A slot carries a key or none, and a dirty one has a value that
the store has not yet.  What a reader finds under a key is the value of the slot that carries it, or
else that of the store, and neither writing a slot back nor loading another key into a clean slot
changes it.
-/

universe u v

/-- The slots and the store. -/
structure Writeback (κ : Type u) (α : Type v) where
  n : ℕ
  key : ℕ → Option κ
  val : ℕ → α
  dirty : ℕ → Bool
  store : κ → α

namespace Writeback

variable {κ : Type u} {α : Type v} {c c' : Writeback κ α} {i j : ℕ} {k : κ} {a : α}

/-- No key is in two slots, and a clean slot has what the store has. -/
structure Coherent (c : Writeback κ α) : Prop where
  uniq : ∀ i j k, i < c.n → j < c.n → c.key i = some k → c.key j = some k → i = j
  clean : ∀ i k, i < c.n → c.key i = some k → c.dirty i = false → c.val i = c.store k

/-! ## Another key in a slot -/

/-- Load a key into a slot. -/
def load (c : Writeback κ α) (i : ℕ) (k : κ) : Writeback κ α :=
  { c with
    key := Function.update c.key i (some k)
    val := Function.update c.val i (c.store k)
    dirty := Function.update c.dirty i false }

/-- Empty a slot. -/
def drop (c : Writeback κ α) (i : ℕ) (a : α) : Writeback κ α :=
  { c with
    key := Function.update c.key i none
    val := Function.update c.val i a
    dirty := Function.update c.dirty i false }

/-- A clean slot whose key is given up for another, or for none. -/
lemma replace_coherent (h : Coherent c) (hn : c'.n = c.n) (hs : c'.store = c.store)
    (hkey : ∀ j, j ≠ i → c'.key j = c.key j) (hval : ∀ j, j ≠ i → c'.val j = c.val j)
    (hdirty : ∀ j, j ≠ i → c'.dirty j = c.dirty j)
    (hnew : ∀ k, c'.key i = some k → (∀ j < c.n, c.key j ≠ some k) ∧ c'.val i = c.store k) :
    Coherent c' := by
  have huniq : ∀ j l, j < c.n → c'.key i = some l → c'.key j = some l → j = i := by
    intro j l hj hl hjl
    by_contra hji
    exact (hnew l hl).1 j hj ((hkey j hji).symm.trans hjl)
  refine ⟨fun j j' l hj hj' hl hl' => ?_, fun j l hj hl hd => ?_⟩
  · rw [hn] at hj hj'
    by_cases hji : j = i
    · subst hji
      exact (huniq j' l hj' hl hl').symm
    · by_cases hji' : j' = i
      · subst hji'
        exact huniq j l hj hl' hl
      · exact h.uniq j j' l hj hj' ((hkey j hji).symm.trans hl) ((hkey j' hji').symm.trans hl')
  · rw [hs]
    by_cases hji : j = i
    · subst hji
      exact (hnew l hl).2
    · rw [hval j hji]
      exact h.clean j l (hn ▸ hj) ((hkey j hji).symm.trans hl) ((hdirty j hji).symm.trans hd)

lemma load_new (hk : ∀ j < c.n, c.key j ≠ some k) (l : κ) (hl : (c.load i k).key i = some l) :
    (∀ j < c.n, c.key j ≠ some l) ∧ (c.load i k).val i = c.store l := by
  have hlk : k = l := Option.some.inj ((Function.update_self (f := c.key) ..).symm.trans hl)
  subst hlk
  exact ⟨hk, Function.update_self ..⟩

lemma load_coherent (h : Coherent c) (hk : ∀ j < c.n, c.key j ≠ some k) :
    Coherent (c.load i k) :=
  replace_coherent h rfl rfl (fun _ hj => Function.update_of_ne hj ..)
    (fun _ hj => Function.update_of_ne hj ..) (fun _ hj => Function.update_of_ne hj ..) (load_new hk)

lemma drop_new (l : κ) (hl : (c.drop i a).key i = some l) :
    (∀ j < c.n, c.key j ≠ some l) ∧ (c.drop i a).val i = c.store l := by
  have hnone : (c.drop i a).key i = none := Function.update_self ..
  cases hnone.symm.trans hl

lemma drop_coherent (h : Coherent c) : Coherent (c.drop i a) :=
  replace_coherent h rfl rfl (fun _ hj => Function.update_of_ne hj ..)
    (fun _ hj => Function.update_of_ne hj ..) (fun _ hj => Function.update_of_ne hj ..) drop_new

/-! ## What a reader finds -/

variable [DecidableEq κ]

/-- The slot that carries a key. -/
def find (c : Writeback κ α) (k : κ) : Option ℕ :=
  (List.range c.n).find? fun i => decide (c.key i = some k)

/-- What a reader finds. -/
def value (c : Writeback κ α) (k : κ) : α :=
  match c.find k with
  | some i => c.val i
  | none => c.store k

/-- Readers find the same, and nothing but what they find has been stored. -/
structure Keeps (c c' : Writeback κ α) : Prop where
  value : ∀ k, c'.value k = c.value k
  store : ∀ k, c'.store k = c.store k ∨ c'.store k = c.value k

lemma Keeps.refl (c : Writeback κ α) : Keeps c c := ⟨fun _ => rfl, fun _ => Or.inl rfl⟩

lemma Keeps.trans {c'' : Writeback κ α} (h : Keeps c c') (h' : Keeps c' c'') : Keeps c c'' := by
  refine ⟨fun k => (h'.value k).trans (h.value k), fun k => ?_⟩
  rcases h'.store k with e | e
  · rw [e]
    exact h.store k
  · exact Or.inr (e.trans (h.value k))

lemma value_of_key (h : Coherent c) (hi : i < c.n) (hk : c.key i = some k) :
    c.value k = c.val i := by
  have hfind : c.find k = some i := by
    cases hf : c.find k with
    | none => exact absurd hk (by simpa using List.find?_eq_none.mp hf i (List.mem_range.mpr hi))
    | some j =>
        have hj := List.mem_range.mp (List.mem_of_find?_eq_some hf)
        have hkj : c.key j = some k := by simpa using List.find?_some hf
        rw [h.uniq i j k hi hj hk hkj]
  rw [value, hfind]

lemma value_of_not_key (hk : ∀ i < c.n, c.key i ≠ some k) : c.value k = c.store k := by
  have hfind : c.find k = none :=
    List.find?_eq_none.mpr fun i hi => by simpa using hk i (List.mem_range.mp hi)
  rw [value, hfind]

/-- A key that no dirty slot carries. -/
lemma value_of_clean (h : Coherent c) (hk : ∀ i < c.n, c.key i = some k → c.dirty i = false) :
    c.value k = c.store k := by
  by_cases hex : ∃ i < c.n, c.key i = some k
  · obtain ⟨i, hi, hki⟩ := hex
    rw [value_of_key h hi hki]
    exact h.clean i k hi hki (hk i hi hki)
  · exact value_of_not_key fun i hi hki => hex ⟨i, hi, hki⟩

/-- Two caches with the same slots but for one: if that one carries the key in neither, the values of
the key are those of the stores. -/
lemma value_congr (h : Coherent c) (h' : Coherent c') (hn : c'.n = c.n) (hi : i < c.n)
    (hkey : ∀ j, j ≠ i → c'.key j = c.key j) (hval : ∀ j, j ≠ i → c'.val j = c.val j)
    (hki : c.key i ≠ some k) (hki' : c'.key i ≠ some k) (hstore : c'.store k = c.store k) :
    c'.value k = c.value k := by
  by_cases hex : ∃ j < c.n, c.key j = some k
  · obtain ⟨j, hj, hkj⟩ := hex
    have hji : j ≠ i := by
      rintro rfl
      exact hki hkj
    rw [value_of_key h hj hkj, value_of_key h' (hn ▸ hj) ((hkey j hji).trans hkj), hval j hji]
  · rw [value_of_not_key fun j hj hkj => hex ⟨j, hj, hkj⟩, value_of_not_key fun j hj hkj => ?_, hstore]
    have hji : j ≠ i := by
      rintro rfl
      exact hki' hkj
    exact hex ⟨j, hn ▸ hj, (hkey j hji).symm.trans hkj⟩

lemma replace_keeps (h : Coherent c) (h' : Coherent c') (hi : i < c.n) (hd : c.dirty i = false)
    (hn : c'.n = c.n) (hs : c'.store = c.store)
    (hkey : ∀ j, j ≠ i → c'.key j = c.key j) (hval : ∀ j, j ≠ i → c'.val j = c.val j)
    (hnew : ∀ k, c'.key i = some k → (∀ j < c.n, c.key j ≠ some k) ∧ c'.val i = c.store k) :
    Keeps c c' := by
  refine ⟨fun l => ?_, fun l => Or.inl (by rw [hs])⟩
  by_cases hl' : c'.key i = some l
  · -- the new key, which only the store had
    rw [value_of_key h' (hn ▸ hi) hl', value_of_not_key (hnew l hl').1, (hnew l hl').2]
  · by_cases hl : c.key i = some l
    · -- the old key, which the store has as well
      have hnone : ∀ j < c'.n, c'.key j ≠ some l := by
        intro j hj hjl
        have hji : j ≠ i := by
          rintro rfl
          exact hl' hjl
        exact hji (h.uniq j i l (hn ▸ hj) hi ((hkey j hji).symm.trans hjl) hl)
      rw [value_of_key h hi hl, value_of_not_key hnone, hs]
      exact (h.clean i l hi hl hd).symm
    · exact value_congr h h' hn hi hkey hval hl hl' (by rw [hs])

lemma load_keeps (h : Coherent c) (hi : i < c.n) (hd : c.dirty i = false)
    (hk : ∀ j < c.n, c.key j ≠ some k) : Keeps c (c.load i k) :=
  replace_keeps h (load_coherent h hk) hi hd rfl rfl (fun _ hj => Function.update_of_ne hj ..)
    (fun _ hj => Function.update_of_ne hj ..) (load_new hk)

lemma drop_keeps (h : Coherent c) (hi : i < c.n) (hd : c.dirty i = false) : Keeps c (c.drop i a) :=
  replace_keeps h (drop_coherent h) hi hd rfl rfl (fun _ hj => Function.update_of_ne hj ..)
    (fun _ hj => Function.update_of_ne hj ..) drop_new

/-! ## Writing back -/

/-- Write a slot with key `k` back. -/
def flush (c : Writeback κ α) (i : ℕ) (k : κ) : Writeback κ α :=
  { c with
    dirty := Function.update c.dirty i false
    store := Function.update c.store k (c.val i) }

lemma flush_coherent (h : Coherent c) (hi : i < c.n) (hk : c.key i = some k) :
    Coherent (c.flush i k) := by
  refine ⟨h.uniq, fun j l hj hl hd => ?_⟩
  by_cases hji : j = i
  · subst hji
    have hlk : l = k := Option.some.inj (hl.symm.trans hk)
    rw [hlk]
    exact (Function.update_self k (c.val j) c.store).symm
  · have hlk : l ≠ k := by
      rintro rfl
      exact hji (h.uniq j i l hj hi hl hk)
    have hd' : c.dirty j = false := by rwa [← Function.update_of_ne hji false c.dirty]
    show c.val j = Function.update c.store k (c.val i) l
    rw [Function.update_of_ne hlk]
    exact h.clean j l hj hl hd'

lemma flush_keeps (h : Coherent c) (hi : i < c.n) (hk : c.key i = some k) :
    Keeps c (c.flush i k) := by
  have hvalue := value_of_key h hi hk
  refine ⟨fun l => ?_, fun l => ?_⟩
  · by_cases hlk : l = k
    · subst hlk
      rw [hvalue]
      exact value_of_key (flush_coherent h hi hk) hi hk
    · refine value_congr h (flush_coherent h hi hk) rfl hi (fun _ _ => rfl) (fun _ _ => rfl) ?_ ?_
        (Function.update_of_ne hlk ..)
      · exact fun hl => hlk (Option.some.inj (hl.symm.trans hk))
      · exact fun hl => hlk (Option.some.inj (hl.symm.trans hk))
  · by_cases hlk : l = k
    · subst hlk
      rw [hvalue]
      exact Or.inr (Function.update_self ..)
    · exact Or.inl (Function.update_of_ne hlk ..)

end Writeback
