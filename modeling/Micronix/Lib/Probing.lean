import Mathlib.Logic.Function.Basic
import Micronix.Lib.Turns

/-!
# Open addressing

A table of `m` slots holds the numbers of the keys that were put into it, in the order in which they
came.  A key goes to the first free slot from its hash on, around the table; the search for it ends
there, or at a free slot if the table has no such key.  Keys are taken out in the opposite order only,
which gives the table back as it was, so that no search comes upon a hole.
-/

namespace Probing

/-- From the slot `i` on, the first one where the search ends. -/
def probe (m : ℕ) (stop : ℕ → Bool) : ℕ → ℕ → ℕ
  | 0, i => i
  | limit + 1, i => if stop i then i else probe m stop limit (if i + 1 < m then i + 1 else 0)

section

variable {m limit i j : ℕ} {f g : ℕ → Bool}

/-- With as many turns as there are slots the search comes to every slot. -/
lemma probe_stops (hi : i < m) (hj : j < m) (hstop : f j = true) (hl : Turns.ahead m i j < limit) :
    f (probe m f limit i) = true := by
  induction limit generalizing i with
  | zero => exact absurd hl (Nat.not_lt_zero _)
  | succ limit ih =>
      rw [probe]
      by_cases h : f i = true
      · rw [if_pos h]
        exact h
      rw [if_neg h]
      have hne : i ≠ j := by
        rintro rfl
        exact h hstop
      rcases Nat.lt_or_ge j i with hlt | hge
      · rw [Turns.ahead_of_lt (Nat.le_of_lt hi) hlt] at hl
        by_cases hlast : i + 1 < m
        · rw [if_pos hlast]
          refine ih hlast ?_
          rw [Turns.ahead_of_lt (Nat.le_of_lt hlast) (by omega)]
          omega
        · rw [if_neg hlast]
          refine ih (by omega) ?_
          rw [Turns.ahead_of_le hj (Nat.zero_le j)]
          omega
      · rw [Turns.ahead_of_le hj hge] at hl
        rw [if_pos (by omega)]
        refine ih (by omega) ?_
        rw [Turns.ahead_of_le hj (by omega)]
        omega

/-- A slot where the search ended, and does not any longer, matters only if it was the first. -/
lemma probe_congr (hstop : f j = true) (hother : ∀ i ≠ j, g i = f i)
    (hne : probe m f limit i ≠ j) : probe m g limit i = probe m f limit i := by
  induction limit generalizing i with
  | zero => rfl
  | succ limit ih =>
      rw [probe] at hne ⊢
      have hij : i ≠ j := by
        rintro rfl
        exact hne (if_pos hstop)
      rw [probe, hother i hij]
      by_cases h : f i = true
      · rw [if_pos h, if_pos h]
      · rw [if_neg h] at hne
        rw [if_neg h, if_neg h]
        exact ih hne

end

/-- The keys, the slots with the numbers of the keys, and for every key its slot. -/
structure Table (α : Type*) where
  names : List α
  tbl : ℕ → Option ℕ
  slots : List ℕ

namespace Table

variable {α : Type*}

@[ext] lemma ext {T T' : Table α} (hn : T.names = T'.names) (ht : T.tbl = T'.tbl)
    (hs : T.slots = T'.slots) : T = T' := by
  cases T
  cases T'
  congr

/-- The key in a slot. -/
def key (T : Table α) (i : ℕ) : Option α := (T.tbl i).bind (T.names[·]?)

/-- Without keys. -/
def empty : Table α := ⟨[], fun _ => none, []⟩

/-- Without the key that came last. -/
def pop (T : Table α) : Table α where
  names := T.names.dropLast
  tbl := T.slots.getLast?.elim T.tbl fun i => Function.update T.tbl i none
  slots := T.slots.dropLast

variable [DecidableEq α] (m : ℕ) (h : α → ℕ)

/-- The search for a key. -/
def find (T : Table α) (n : α) : ℕ :=
  probe m (fun i => T.tbl i = none || T.key i = some n) m (h n)

/-- One more key. -/
def push (T : Table α) (n : α) : Table α where
  names := T.names ++ [n]
  tbl := Function.update T.tbl (T.find m h n) (some T.names.length)
  slots := T.slots ++ [T.find m h n]

/-- Tables that come about in this way. -/
inductive Built : Table α → Prop
  | empty : Built empty
  | push {T : Table α} {n : α} : Built T → n ∉ T.names → T.names.length < m → Built (T.push m h n)

variable {m h} {T : Table α} {n : α} {i k : ℕ}

lemma Built.length (hT : Built m h T) : T.slots.length = T.names.length := by
  induction hT with
  | empty => rfl
  | push hT hn hm ih => simp only [Table.push, List.length_append, ih, List.length_singleton]

/-- A slot belongs to its key. -/
lemma Built.slot (hT : Built m h T) (hi : T.tbl i = some k) :
    k < T.names.length ∧ T.slots[k]? = some i := by
  induction hT with
  | empty => cases hi
  | @push T n hT hn hm ih =>
      by_cases hnew : i = T.find m h n
      · subst hnew
        obtain rfl : T.names.length = k := by simpa [Table.push] using hi
        refine ⟨by simp [Table.push], ?_⟩
        simp only [Table.push, ← hT.length, List.getElem?_concat_length]
      · have hold : T.tbl i = some k := by simpa [Table.push, Function.update_of_ne hnew] using hi
        obtain ⟨hlt, hslot⟩ := ih hold
        refine ⟨by simp only [Table.push, List.length_append]; omega, ?_⟩
        simp only [Table.push]
        rw [List.getElem?_append_left (by rw [hT.length]; exact hlt)]
        exact hslot

lemma Built.key_push (hT : Built m h T) (hi : i ≠ T.find m h n) : (T.push m h n).key i = T.key i := by
  rw [key, key, Table.push]
  dsimp only
  rw [Function.update_of_ne hi]
  cases hk : T.tbl i with
  | none => rfl
  | some k => exact List.getElem?_append_left (hT.slot hk).1

/-- Unless all of them are taken there is a free slot. -/
lemma Built.free (hT : Built m h T) (hm : T.names.length < m) : ∃ i < m, T.tbl i = none := by
  by_contra hno
  push Not at hno
  have hsub : List.range m ⊆ T.slots := by
    intro i hi
    obtain ⟨k, hk⟩ := Option.ne_none_iff_exists'.mp (hno i (List.mem_range.mp hi))
    exact List.mem_of_getElem? (hT.slot hk).2
  have hle := (List.nodup_range.subperm hsub).length_le
  rw [List.length_range, hT.length] at hle
  omega

variable (hh : ∀ n, h n < m)

include hh

/-- The search for a key that is not in the table ends at a free slot. -/
theorem Built.find_absent (hT : Built m h T) (hn : n ∉ T.names) (hm : T.names.length < m) :
    T.tbl (T.find m h n) = none := by
  obtain ⟨j, hj, hfree⟩ := hT.free hm
  have hstop := probe_stops (f := fun i => T.tbl i = none || T.key i = some n) (hh n) hj
    (by simp [hfree]) (Turns.ahead_lt hj)
  rcases (Bool.or_eq_true _ _).mp hstop with hnone | hkey
  · exact of_decide_eq_true hnone
  · obtain ⟨k, -, hk⟩ := Option.bind_eq_some_iff.mp (of_decide_eq_true hkey)
    exact absurd (List.mem_of_getElem? hk) hn

/-- **The search finds what is in the table.** -/
theorem Built.find_present (hT : Built m h T) (hk : T.names[k]? = some n) :
    T.tbl (T.find m h n) = some k := by
  induction hT generalizing k n with
  | empty => cases hk
  | @push T new hT hn hm ih =>
      set j := T.find m h new with hj
      have hfree : T.tbl j = none := hT.find_absent hh hn hm
      have htbl {i : ℕ} (hi : i ≠ j) : (T.push m h new).tbl i = T.tbl i := Function.update_of_ne hi ..
      have hself : (T.push m h new).tbl j = some T.names.length := Function.update_self ..
      by_cases hlast : k = T.names.length
      · -- the key that came last: the search for it ends where it ended before
        subst hlast
        obtain rfl : new = n := by simpa [Table.push] using hk
        have hkey : (T.push m h new).key j = some new := by
          rw [key, hself]
          exact List.getElem?_concat_length
        have hsame : (T.push m h new).find m h new = j := by
          rw [hj, find, find]
          congr 1
          funext i
          by_cases hi : i = j
          · subst hi
            simp [hfree, hkey]
          · rw [htbl hi, hT.key_push hi]
        rw [hsame, hself]
      · have hlt : k < T.names.length := by
          obtain ⟨hlen, -⟩ := List.getElem?_eq_some_iff.mp hk
          simp only [Table.push, List.length_append, List.length_singleton] at hlen
          omega
        have hold : T.names[k]? = some n := by
          rw [← hk, Table.push]
          exact (List.getElem?_append_left hlt).symm
        have hfound := ih hold
        have hne : T.find m h n ≠ j := by
          intro heq
          rw [heq, hfree] at hfound
          cases hfound
        have hsame : (T.push m h new).find m h n = T.find m h n := by
          refine probe_congr (by simp [hfree]) (fun i hi => ?_) hne
          rw [htbl hi, hT.key_push hi]
        rw [hsame, htbl hne, hfound]

/-- **What came last is taken out again.** -/
theorem Built.pop_push (hT : Built m h T) (hn : n ∉ T.names) (hm : T.names.length < m) :
    (T.push m h n).pop = T := by
  have hfree := hT.find_absent hh hn hm
  refine Table.ext ?_ ?_ ?_
  · exact List.dropLast_concat
  · rw [pop, Table.push]
    dsimp only
    rw [List.getLast?_concat]
    show Function.update (Function.update _ _ _) _ _ = _
    rw [Function.update_idem, ← hfree, Function.update_eq_self]
  · exact List.dropLast_concat

omit hh in
/-- The keys differ from one another. -/
lemma Built.nodup (hT : Built m h T) : T.names.Nodup := by
  induction hT with
  | empty => exact List.nodup_nil
  | push hT hn hm ih => simpa only [Table.push, List.concat_eq_append] using ih.concat hn

/-- The tables that come about from `T` when more keys are put into it. -/
inductive Grows (m : ℕ) (h : α → ℕ) (T : Table α) : Table α → Prop
  | refl : Grows m h T T
  | push {T' : Table α} {n : α} :
      Grows m h T T' → n ∉ T'.names → T'.names.length < m → Grows m h T (T'.push m h n)

/-- **When they are taken out again the table is as it was.** -/
theorem Grows.pop {T' : Table α} (hg : Grows m h T T') (hT : Built m h T) :
    Built m h T' ∧ T.names.length ≤ T'.names.length ∧
      Table.pop^[T'.names.length - T.names.length] T' = T := by
  induction hg with
  | refl =>
      refine ⟨hT, Nat.le_refl _, ?_⟩
      rw [Nat.sub_self]
      rfl
  | @push T' n hg hn hm ih =>
      obtain ⟨hT', hle, hpop⟩ := ih
      have hlen : (T'.push m h n).names.length = T'.names.length + 1 := List.length_append ..
      refine ⟨hT'.push hn hm, by omega, ?_⟩
      rw [hlen, Nat.succ_sub hle, Function.iterate_succ_apply, hT'.pop_push hh hn hm, hpop]

end Table

end Probing
