import Mathlib.Data.List.GetD
import Mathlib.Data.List.Infix

/-!
# Whom to swap out

`findout` goes over the process table and keeps the best process so far in `n`.  In
`n->mode & AWAKE == p->mode & AWAKE` the `==` is evaluated first, and what is left of it is never
true; so a process replaces `n` whenever `n` is awake.  The choice is the first sleeping process that
may be swapped, or the last one that may be if all are awake.
-/

namespace Micronix

namespace Findout

/-- `p->mode` -/
abbrev Mode := BitVec 8

def ALIVE : Mode := 0o002
def AWAKE : Mode := 0o004
def LOADED : Mode := 0o010
def LOCKED : Mode := 0o040

/-- The minimum run time before swapout. -/
def MINRUN : ℕ := 2

/-- An entry of `plist`, as far as `findout` looks at it. -/
structure Proc where
  mode : Mode
  /-- residency time in core -/
  time : ℕ
  deriving DecidableEq

/-- The process may be swapped out: it is in memory, not locked, and has had its time to run. -/
def Proc.swappable (p : Proc) : Bool :=
  p.mode &&& (ALIVE ||| LOADED ||| LOCKED) = ALIVE ||| LOADED ∧ p.time ≥ MINRUN

/-- `n->mode & AWAKE == p->mode & AWAKE`, as C reads it. -/
def sameKind (n p : Proc) : Bool := n.mode &&& (if AWAKE = p.mode then 1 else 0) &&& AWAKE ≠ 0

/-- `p` replaces `n`. -/
def replaces (p n : Proc) : Bool :=
  (sameKind n p ∧ n.time < p.time) ∨ n.mode &&& AWAKE ≠ 0

/-- The body of the loop, for the entry `x` of the table. -/
def turn (n : Option (Proc × ℕ)) (x : Proc × ℕ) : Option (Proc × ℕ) :=
  if x.1.swappable ∧ n.all fun y => replaces x.1 y.1 then some x else n

/-- `findout()`: the process with its index. -/
def findout (plist : List Proc) : Option (Proc × ℕ) := plist.zipIdx.foldl turn none

/-! ## The choice -/

/-- `p->mode & AWAKE` is 0. -/
def Proc.asleep (p : Proc) : Bool := p.mode &&& AWAKE = 0

/-- The processes that may be swapped out, with their indices. -/
def candidates (plist : List Proc) : List (Proc × ℕ) := plist.zipIdx.filter fun x => x.1.swappable

/-- What the loop leaves of a list of processes that may be swapped out. -/
def choice (l : List (Proc × ℕ)) : Option (Proc × ℕ) := (l.find? fun x => x.1.asleep) <|> l.getLast?

lemma sameKind_eq (n p : Proc) : sameKind n p = false := by
  have hone : 1#8 &&& AWAKE = 0#8 := by decide
  rw [sameKind, BitVec.and_assoc]
  split_ifs <;> simp [hone]

/-- A process replaces one that is awake. -/
lemma replaces_eq (p n : Proc) : replaces p n = !n.asleep := by
  simp [replaces, sameKind_eq, Proc.asleep]

/-- One more candidate. -/
lemma turn_choice {l : List (Proc × ℕ)} {x : Proc × ℕ} (hx : x.1.swappable = true) :
    turn (choice l) x = choice (l ++ [x]) := by
  rw [turn, choice, choice, List.find?_append, List.getLast?_append]
  cases hfind : l.find? fun x => x.1.asleep with
  | some y =>
      have hy : y.1.asleep = true := List.find?_some (p := fun x : Proc × ℕ => x.1.asleep) hfind
      simp [replaces_eq, hy]
  | none =>
      have hawake : ∀ y ∈ l, y.1.asleep = false := by
        simpa using List.find?_eq_none.mp hfind
      cases hlast : l.getLast? with
      | none => cases hs : x.1.asleep <;> simp [hx, hs]
      | some y =>
          have hy := hawake y (List.mem_of_getLast? hlast)
          cases hs : x.1.asleep <;> simp [hx, hs, hy, replaces_eq]

/-- The loop, by induction on the processes that it has gone over. -/
lemma foldl_turn (l : List (Proc × ℕ)) :
    l.foldl turn none = choice (l.filter fun x => x.1.swappable) := by
  induction l using List.reverseRecOn with
  | nil => rfl
  | append_singleton l x ih =>
      rw [List.foldl_append, ih, List.filter_append, List.foldl_cons, List.foldl_nil]
      cases hx : x.1.swappable with
      | true =>
          have hkeep : [x].filter (fun x => x.1.swappable) = [x] := by simp [hx]
          rw [hkeep, turn_choice hx]
      | false =>
          have hdrop : [x].filter (fun x => x.1.swappable) = [] := by simp [hx]
          rw [hdrop, List.append_nil, turn, if_neg (by simp [hx])]

lemma findout_eq (plist : List Proc) : findout plist = choice (candidates plist) :=
  foldl_turn plist.zipIdx

/-! ## What it should be -/

/-- The process is one that may be swapped, a sleeping one if there is any, and none of its kind has
been in memory longer. -/
structure Best (plist : List Proc) (x : Proc × ℕ) : Prop where
  mem : x ∈ candidates plist
  asleep : (∃ y ∈ candidates plist, y.1.asleep) → x.1.asleep
  longest : ∀ y ∈ candidates plist, y.1.asleep = x.1.asleep → y.1.time ≤ x.1.time

/-- `findout` returns such a process whenever there is one that may be swapped. -/
def Chooses (plist : List Proc) : Prop :=
  match findout plist with
  | some x => Best plist x
  | none => candidates plist = []

/-- No process asleep has been in memory longer than the first one; where all are awake, none longer
than the last one. -/
def InOrder (plist : List Proc) : Prop :=
  match (candidates plist).find? fun x => x.1.asleep with
  | some x => ∀ y ∈ candidates plist, y.1.asleep → y.1.time ≤ x.1.time
  | none => ∀ x, (candidates plist).getLast? = some x →
      ∀ y ∈ candidates plist, y.1.time ≤ x.1.time

/-- **The choice of the process to swap out.** -/
theorem findout_chooses (plist : List Proc) : Chooses plist ↔ InOrder plist := by
  rw [Chooses, InOrder, findout_eq, choice]
  cases hfind : (candidates plist).find? fun x => x.1.asleep with
  | some x =>
      have hx : x.1.asleep = true := List.find?_some (p := fun x : Proc × ℕ => x.1.asleep) hfind
      have hmem := List.mem_of_find?_eq_some hfind
      constructor
      · intro h y hy hs
        exact h.longest y hy (hs.trans hx.symm)
      · intro h
        exact ⟨hmem, fun _ => hx, fun y hy hs => h y hy (hs.trans hx)⟩
  | none =>
      have hawake : ∀ y ∈ candidates plist, y.1.asleep = false := by
        simpa using List.find?_eq_none.mp hfind
      cases hlast : (candidates plist).getLast? with
      | none =>
          simpa using hlast
      | some x =>
          have hmem := List.mem_of_getLast? hlast
          constructor
          · rintro h z hz y hy
            obtain rfl := Option.some.inj hz
            exact h.longest y hy ((hawake y hy).trans (hawake x hmem).symm)
          · intro h
            refine ⟨hmem, ?_, fun y hy _ => h x rfl y hy⟩
            rintro ⟨y, hy, hs⟩
            rw [hawake y hy] at hs
            cases hs

/-- Two sleeping processes; the second has been in memory longer. -/
theorem findout_takes_first : ¬∀ plist, Chooses plist := by
  intro h
  have hbest : Best [⟨0o012, 2⟩, ⟨0o012, 9⟩] (⟨0o012, 2⟩, 0) := h [⟨0o012, 2⟩, ⟨0o012, 9⟩]
  exact absurd (hbest.longest (⟨0o012, 9⟩, 1) (by decide) rfl) (by decide)

end Findout

end Micronix
