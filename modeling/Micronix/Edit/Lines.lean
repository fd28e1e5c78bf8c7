import Micronix.Edit.Buffer

/-!
# The buffer of the screen editor is a list of lines

`bman.c` calls the functions of `buffer.c` with numbers of lines that there are (`allowed`).  In every
run of such calls they return what they would return of a plain list, wherever the search for a line
begins.
-/

namespace Micronix

namespace Edit

/-- A call. -/
inductive Call
  | insert (k : ℤ) (t : Text)
  | delete (start stop : ℤ)
  | replace (k : ℤ) (t : Text)
  | gets (k : ℤ)
  | id (k : ℤ)

/-- What a call returns. -/
inductive Reply
  | told (ok : Bool)
  | none
  | text (t : Text)
  | number (n : Word)
  deriving DecidableEq

/-- The numbers that `bman.c` lets pass, when there are `n` lines. -/
def allowed (n : ℕ) : Call → Bool
  | .insert k _ => 1 ≤ k ∧ k ≤ n + 1
  | .delete start stop => 1 ≤ start ∧ start ≤ stop + 1 ∧ stop ≤ n
  | .replace k _ => 1 ≤ k ∧ k ≤ n
  | .gets k => 1 ≤ k ∧ k ≤ n
  | .id k => 1 ≤ k ∧ k ≤ n

/-- A call of `buffer.c`. -/
def Buffer.call (m : Malloc) (s : Buffer) : Call → Buffer × Reply
  | .insert k t => ((s.buf_insert m k t).1, .told (s.buf_insert m k t).2)
  | .delete start stop => (s.buf_delete start stop, .none)
  | .replace k t => ((s.buf_replace m k t).1, .told (s.buf_replace m k t).2)
  | .gets k => ((s.buf_gets k).1, .text (s.buf_gets k).2)
  | .id k => ((s.buf_id k).1, .number (s.buf_id k).2)

/-- Calls one after the other, with what they return. -/
def Buffer.run (m : Malloc) (s : Buffer) : List Call → Buffer × List (Call × Reply)
  | [] => (s, [])
  | c :: cs =>
      let r := s.call m c
      let rest := r.1.run m cs
      (rest.1, (c, r.2) :: rest.2)

/-! ## The plain list -/

/-- Lines with their numbers, and the last number that was given. -/
structure Doc where
  lines : List (Text × Word)
  last_id : Word

/-- The call of a plain list, if it may return that: a new line, or a new text, has a new number; there
is a change only where the call says so. -/
def Doc.call (d : Doc) : Call × Reply → Option Doc
  | (.insert k t, .told true) =>
      some ⟨d.lines.take (k - 1).toNat ++ (t, d.last_id + 1) :: d.lines.drop (k - 1).toNat, d.last_id + 1⟩
  | (.replace k t, .told true) =>
      some ⟨d.lines.take (k - 1).toNat ++ (t, d.last_id + 1) :: d.lines.drop k.toNat, d.last_id + 1⟩
  | (.insert _ _, .told false) => some d
  | (.replace _ _, .told false) => some d
  | (.delete start stop, .none) =>
      some ⟨d.lines.take (start - 1).toNat ++ d.lines.drop stop.toNat, d.last_id⟩
  | (.gets k, .text t) => if d.lines[(k - 1).toNat]?.map (·.1) = some t then some d else none
  | (.id k, .number n) => if d.lines[(k - 1).toNat]?.map (·.2) = some n then some d else none
  | _ => none

/-- The calls of a run are allowed, as the lines come and go. -/
def allAllowed : Doc → List (Call × Reply) → Bool
  | _, [] => true
  | d, r :: rs => allowed d.lines.length r.1 && (d.call r).elim true fun d' => allAllowed d' rs

/-- The buffer is that list. -/
structure Buffer.Is (s : Buffer) (d : Doc) : Prop where
  has : s.Has d.lines
  last_id : s.last_id = d.last_id

section

variable {m : Malloc} {s : Buffer} {d : Doc} {c : Call}

/-- One call. -/
lemma call_is (h : s.Is d) (hc : allowed d.lines.length c = true) :
    ∃ d', d.call (c, (s.call m c).2) = some d' ∧ (s.call m c).1.Is d' := by
  cases c with
  | insert k t =>
      have hk : 1 ≤ k ∧ k ≤ d.lines.length + 1 := of_decide_eq_true hc
      obtain ⟨i, rfl⟩ : ∃ i : ℕ, k = i + 1 := ⟨(k - 1).toNat, by omega⟩
      obtain ⟨hhas, hid⟩ := Buffer.has_insert (t := t) (m := m) (k := i) h.has (by omega) Prod.mk.eta.symm
      rw [Buffer.call]
      cases hok : (s.buf_insert m (i + 1) t).2 with
      | false => 
          rw [hok] at hhas hid
          exact ⟨d, rfl, hhas, hid.trans h.last_id⟩
      | true =>
          rw [hok, h.last_id] at hhas hid
          refine ⟨_, rfl, ?_, hid⟩
          have hi : ((i : ℤ) + 1 - 1).toNat = i := by omega
          simp only [hi]
          exact hhas
  | delete start stop =>
      have hk : 1 ≤ start ∧ start ≤ stop + 1 ∧ stop ≤ d.lines.length := of_decide_eq_true hc
      obtain ⟨i, rfl⟩ : ∃ i : ℕ, start = i + 1 := ⟨(start - 1).toNat, by omega⟩
      obtain ⟨j, rfl⟩ : ∃ j : ℕ, stop = j := ⟨stop.toNat, by omega⟩
      obtain ⟨hhas, hid⟩ := Buffer.has_delete h.has (i := i) (j := j) (by omega) (by omega)
      refine ⟨_, rfl, ?_, hid.trans h.last_id⟩
      have hi : ((i : ℤ) + 1 - 1).toNat = i := by omega
      simp only [hi, Int.toNat_natCast]
      exact hhas
  | replace k t =>
      have hk : 1 ≤ k ∧ k ≤ d.lines.length := of_decide_eq_true hc
      obtain ⟨i, rfl⟩ : ∃ i : ℕ, k = i + 1 := ⟨(k - 1).toNat, by omega⟩
      obtain ⟨hhas, hid⟩ := Buffer.has_replace (t := t) (m := m) (k := i) h.has (by omega) Prod.mk.eta.symm
      rw [Buffer.call]
      cases hok : (s.buf_replace m (i + 1) t).2 with
      | false =>
          rw [hok] at hhas hid
          exact ⟨d, rfl, hhas, hid.trans h.last_id⟩
      | true =>
          rw [hok, h.last_id] at hhas hid
          refine ⟨_, rfl, ?_, hid⟩
          have hi : ((i : ℤ) + 1 - 1).toNat = i := by omega
          have hi' : ((i : ℤ) + 1).toNat = i + 1 := by omega
          simp only [hi, hi']
          exact hhas
  | gets k =>
      have hk : 1 ≤ k ∧ k ≤ d.lines.length := of_decide_eq_true hc
      obtain ⟨i, rfl⟩ : ∃ i : ℕ, k = i + 1 := ⟨(k - 1).toNat, by omega⟩
      have hlt : i < d.lines.length := by
        omega
      have hget := List.getElem?_eq_getElem hlt
      have hi : ((i : ℤ) + 1 - 1).toNat = i := by omega
      refine ⟨d, ?_, Buffer.has_gets h.has _, h.last_id⟩
      refine if_pos ?_
      rw [hi, hget, Option.map_some]
      exact congrArg some (Buffer.gets_eq h.has hget).1.symm
  | id k =>
      have hk : 1 ≤ k ∧ k ≤ d.lines.length := of_decide_eq_true hc
      obtain ⟨i, rfl⟩ : ∃ i : ℕ, k = i + 1 := ⟨(k - 1).toNat, by omega⟩
      have hlt : i < d.lines.length := by
        omega
      have hget := List.getElem?_eq_getElem hlt
      have hi : ((i : ℤ) + 1 - 1).toNat = i := by omega
      refine ⟨d, ?_, Buffer.has_gets h.has _, h.last_id⟩
      refine if_pos ?_
      rw [hi, hget, Option.map_some]
      exact congrArg some (Buffer.gets_eq h.has hget).2.symm

/-- A run, by induction on the calls. -/
lemma run_is (cs : List Call) (h : s.Is d) (hc : allAllowed d (s.run m cs).2 = true) :
    ∃ d', (s.run m cs).2.foldlM Doc.call d = some d' ∧ (s.run m cs).1.Is d' := by
  induction cs generalizing s d with
  | nil => exact ⟨d, rfl, h⟩
  | cons c cs ih =>
      rw [Buffer.run] at hc ⊢
      obtain ⟨hallowed, hrest⟩ := (Bool.and_eq_true _ _).mp hc
      obtain ⟨d', hd', his⟩ := call_is (m := m) h hallowed
      rw [hd'] at hrest
      obtain ⟨d'', hd'', his'⟩ := ih his hrest
      refine ⟨d'', ?_, his'⟩
      rw [List.foldlM_cons, hd']
      exact hd''

end

/-- Nodes are taken by the number of the call. -/
def arena : Malloc where
  get live n := if n + 1 ∈ live then none else some (n + 1)
  fresh live n a h := by
    obtain ⟨hin, ha⟩ := Option.ite_none_left_eq_some.mp h
    obtain rfl := Option.some.inj ha
    exact ⟨Nat.succ_ne_zero n, hin⟩

/-- Three lines, of which one is replaced and one is deleted. -/
def calls : List Call :=
  [.insert 1 [97], .insert 2 [98], .insert 1 [99], .gets 3, .replace 2 [100], .delete 1 1, .gets 1]

end Edit

end Micronix
